import FbTesting.Base.Potential
import FbTesting.Analyser.Outcome
import FbTesting.Server.Delivery

/-!
# No radar chart is sent twice

The server reads the hour histogram when a chunk of the analyser's output is the
word `hour_histogram`, and sends it when the read is called back.  Chunks are cut
anywhere, so that it is not plain that one upload cannot make the server send the
chart twice.

The underscore is what counts.  The output of a run over a document that is read
has one at most (`marks_analyse_le`), a chunk that starts the read takes one from
it, and neither the pipe nor a read makes a new one.  So the underscores that are
still to be delivered and the reads that are under way are a potential that pays
for the events (`marks_of_move`): in every run a session gets no more radar events
than it made uploads.

The time line has no such mark.  Its word also begins every line of its progress,
after the dash.
-/

namespace Server

open Base Node Analyser Python

/-! ## Underscores of the output -/

/-- The underscores of a text. -/
def underscores (t : Text) : Nat := t.count '_'

theorem underscores_append (t u : Text) : underscores (t ++ u) = underscores t + underscores u :=
  List.count_append

theorem underscores_eq_zero {t : Text} (h : '_' ∉ t) : underscores t = 0 :=
  List.count_eq_zero_of_not_mem h

theorem underscores_normalStream (n l : Nat) : underscores (normalStream n l) = 1 := by
  have hword : underscores "hour_histogram".toList = 1 := by decide
  rw [normalStream, underscores_append, underscores_eq_zero (underscore_normalBody n l), hword]

def isIoError : PyError → Bool
  | .ioError _ _ => true
  | _ => false

/-- The failure is not that of an input or an output. -/
def NoIo {α : Type} (x : Except PyError α) : Prop := ∀ e, x = .error e → isIoError e = false

theorem NoIo.ok {α : Type} (a : α) : NoIo (.ok a) := nofun

theorem NoIo.bind {α β : Type} {x : Except PyError α} {f : α → Except PyError β} (hx : NoIo x)
    (hf : ∀ a, NoIo (f a)) : NoIo (x >>= f) := by
  cases x with
  | ok a => exact hf a
  | error e =>
      intro e' he
      cases he
      exact hx e rfl

theorem NoIo.map {α β : Type} {x : Except PyError α} (hx : NoIo x) (f : α → β) :
    NoIo (x.map f) := by
  cases x with
  | ok a => exact .ok (f a)
  | error e => exact hx.bind fun a => .ok (f a)

theorem NoIo.error {α : Type} {e : PyError} (h : isIoError e = false) :
    NoIo (.error e : Except PyError α) := by
  intro e' he
  cases he
  exact h

theorem noIo_item (l : List Text) (i : Nat) : NoIo (item l i) := by
  unfold item
  split
  · exact .ok _
  · exact .error rfl

theorem noIo_digits (t : Text) : NoIo (digits t) := by
  unfold digits
  split
  · exact .ok _
  · exact .error rfl

theorem noIo_int (t : Text) : NoIo (int t) := by
  have hsigned : ∀ (t : Text) (f : Int → Int),
      NoIo ((do let n ← digits t; pure (n : Int)).map f) :=
    fun t f => ((noIo_digits t).bind fun n => .ok (n : Int)).map f
  unfold int
  split
  · exact .error rfl
  · split
    · exact hsigned _ _
    · split <;> exact hsigned _ _

theorem noIo_extractDate (date : Text) : NoIo (extractDate date) := by
  have hmonth : ∀ name, NoIo (monthNumber name) := by
    intro name
    unfold monthNumber
    split
    · exact .ok _
    · exact .error rfl
  have hdate : ∀ y mo d h mi s, NoIo (datetime y mo d h mi s) := by
    intro y mo d h mi s
    unfold datetime
    split
    · exact .ok _
    · exact .error rfl
  unfold extractDate
  refine (noIo_item _ _).bind fun _ => (noIo_int _).bind fun _ => ?_
  refine (noIo_item _ _).bind fun _ => (noIo_int _).bind fun _ => ?_
  refine (noIo_item _ _).bind fun _ => (hmonth _).bind fun _ => ?_
  refine (noIo_item _ _).bind fun _ => (noIo_item _ _).bind fun _ => (noIo_int _).bind fun _ => ?_
  refine (noIo_item _ _).bind fun _ => (noIo_int _).bind fun _ => ?_
  refine (noIo_item _ _).bind fun _ => (noIo_item _ _).bind fun _ => ?_
  exact hdate _ _ _ _ _ _

theorem noIo_messageLoop (t : Thread) : ∀ (ids : List (Option PyString)) (ms : List Message),
    NoIo (messageLoop t ids ms) := by
  induction t with
  | nil => exact fun _ _ => .ok _
  | cons msg rest ih =>
      intro ids ms
      rw [messageLoop]
      split
      · exact ih ids ms
      · refine NoIo.bind ?_ fun date => ih _ _
        unfold messageDate
        split
        · exact .error rfl
        · exact noIo_extractDate _

theorem noIo_threadLoop (H : HashOrder) (size : Nat) (doc : Document) :
    ∀ (count : Nat) (chats : Dict Text (List Message)),
      NoIo (threadLoop H size doc count chats).result := by
  induction doc with
  | nil => exact fun _ _ => .ok _
  | cons t doc ih =>
      intro count chats
      rw [threadLoop]
      cases hloop : messageLoop t [] [] with
      | error e => exact .error (noIo_messageLoop t [] [] e hloop)
      | ok p => exact ih (count + 1) (chats.set (chatKey H p.1) p.2)

/-- A failed extraction has said the percentages of some threads. -/
theorem extract_error {H : HashOrder} {user : Text} {d : Document} {e : PyError}
    (h : (extract H user d).result = .error e) :
    isIoError e = false ∧ underscores (stdoutText (extract H user d).acts) = 0 := by
  rw [extract] at h ⊢
  cases hloop : (threadLoop H d.length d 0 .empty).result with
  | ok chats =>
      rw [Traced.bind_ok hloop] at h
      cases h
  | error e' =>
      rw [Traced.bind_error hloop] at h ⊢
      cases h
      refine ⟨noIo_threadLoop H _ d 0 .empty e hloop, ?_⟩
      obtain ⟨j, _, hacts, _⟩ := threadLoop_rounds H d.length d 0 .empty
      rw [hacts, stdoutText_rounds]
      exact underscores_eq_zero (not_mem_lines (fun i => underscore_progressLine i _) _)

/-- A run that raises something else than an `IOError` prints what `main` printed. -/
theorem stdoutText_of_error {H : HashOrder} {user filepath : Text}
    {doc : Except PyError Document} {e : PyError}
    (h : (main H user filepath doc).result = .error e) (he : isIoError e = false) :
    stdoutText (analyse H user filepath doc).acts =
      "yes\n".toList ++ stdoutText (main H user filepath doc).acts := by
  have hlast : ∀ e, stdoutText [.stderr e, .flush] = [] := fun _ => rfl
  cases e with
  | ioError errno strerror => cases he
  | indexError => simp [analyse, h, hlast]
  | keyError => simp [analyse, h, hlast]
  | valueError => simp [analyse, h, hlast]
  | attributeError => simp [analyse, h, hlast]
  | xmlError => simp [analyse, h, hlast]

/-- The output of a run over a document that is read has one underscore at most. -/
theorem underscores_analyse_le (H : HashOrder) (user : Text) {filepath : Text}
    (hpath : isHtmlPath filepath = true) (d : Document) :
    underscores (stdoutText (analyse H user filepath (.ok d)).acts) ≤ 1 := by
  have hyes : underscores "yes\n".toList = 0 := by decide
  have hmain := main_of_read H user hpath d
  cases hex : (extract H user d).result with
  | error e =>
      obtain ⟨hio, hzero⟩ := extract_error hex
      rw [Traced.bind_error hex] at hmain
      rw [stdoutText_of_error (congrArg Traced.result hmain) hio, hmain, underscores_append, hyes,
        hzero]
      exact Nat.zero_le 1
  | ok fb =>
      cases d with
      | nil =>
          -- without threads there is no first chat
          have hfirst : firstChat H fb = .error .indexError := by
            rw [extract_result H user .nil, Except.ok.injEq] at hex
            subst hex
            have hempty : H.dict (Dict.empty : Dict Text (List Message)).keys = [] :=
              List.perm_nil.mp (H.dict_perm _)
            simp [firstChat, hempty]
          rw [Traced.bind_ok hex, hfirst, Traced.lift_error_bind] at hmain
          have hsaid : underscores "finished creating JSON chat structure\n".toList = 0 := by decide
          rw [stdoutText_of_error (congrArg Traced.result hmain) rfl, hmain, List.append_nil,
            extract_stdout hex, underscores_append, underscores_append, hyes, hsaid]
          exact Nat.zero_le 1
      | cons t doc =>
          obtain ⟨r, _, hok, _⟩ := main_completes hpath hex (List.cons_ne_nil t doc)
          obtain ⟨n, l, _, hout⟩ := stdoutText_normal hok
          rw [hout, underscores_normalStream]

/-! ## What is still to come -/

/-- The underscores that an analyser has still to deliver. -/
def Proc.underscores (p : Proc) : Nat :=
  Server.underscores p.pipe + Server.underscores p.buffer +
    Server.underscores (stdoutText p.todo)

/-- The read is that of the session's radar chart. -/
def Read.isRadar (key : Text) (r : Read) : Nat := if r = ⟨key, .chart .hourHistogram⟩ then 1 else 0

/-- The event is a radar chart of the session. -/
def Obs.isRadar (key : Text) : Obs → Nat
  | .sent k .radar _ _ => if k = key then 1 else 0
  | _ => 0

/-- The radar events that the session may still get. -/
def State.radarsToCome (key : Text) (σ : State) : Nat :=
  (σ.procs.map fun p => if p.session.text = key then p.underscores else 0).sum +
    (σ.started.map (Read.isRadar key)).sum + (σ.landed.map fun x => x.1.isRadar key).sum

/-- The underscores that an upload of the session adds. -/
def Input.radarGain (H : HashOrder) (key : Text) : Input → Nat
  | .upload s u => if s.text = key then (Proc.start H s u).underscores else 0
  | _ => 0

variable {H : HashOrder}

/-- No act adds an underscore. -/
theorem underscores_act {p p' : Proc} {alive : Bool} {k : Nat}
    {files files' : OutFile → Option Text} (h : p.act alive k files = some (p', files')) :
    p'.underscores ≤ p.underscores := by
  have hnil : underscores [] = 0 := rfl
  cases hp : p.todo with
  | nil => exact absurd hp (Proc.act_todo_ne_nil h)
  | cons a rest =>
      cases a with
      | flush =>
          have hempty : stdoutText [] = [] := rfl
          obtain ⟨_, rfl | ⟨_, _, rfl⟩⟩ := Proc.act_flush hp h
          · simp only [Proc.underscores, hp, stdoutText_flush, underscores_append]
            omega
          · simp only [Proc.underscores, hempty]
            omega
      | stdout t =>
          rw [Proc.act, hp] at h
          cases h
          simp only [Proc.underscores, hp, stdoutText_stdout, underscores_append]
          omega
      | write f t =>
          rw [Proc.act, hp] at h
          cases h
          simp only [Proc.underscores, hp]
          split
          · exact Nat.le_refl _
          · exact Nat.le_refl _
      | stderr e =>
          rw [Proc.act, hp] at h
          cases h
          simp only [Proc.underscores, hp]
          exact Nat.le_refl _
      | «open» f =>
          rw [Proc.act, hp] at h
          cases h
          simp only [Proc.underscores, hp]
          exact Nat.le_refl _
      | close f =>
          rw [Proc.act, hp] at h
          cases h
          simp only [Proc.underscores, hp]
          exact Nat.le_refl _

/-- A chunk that starts a read of the radar chart has an underscore. -/
theorem radar_reads_onStdoutData (key : Text) (live : Option SocketId) (data : Text) (k : Text) :
    (((onStdoutData live data).acts.flatMap (Effect.reads k)).map (Read.isRadar key)).sum ≤
      if k = key then underscores data else 0 := by
  obtain hnone | ⟨c, hc, hone⟩ := reads_onStdoutData k live data
  · simp [hnone]
  · rw [hone]
    cases c with
    | timeline => simp [Read.isRadar]
    | hourHistogram =>
        have hpos : 0 < underscores data := by
          refine List.count_pos_iff.mpr ((List.takeWhile_sublist (· ≠ '\r')).mem ?_)
          change '_' ∈ beforeReturn data
          rw [hc]
          decide
        simp only [List.map_cons, List.map_nil, List.sum_cons, List.sum_nil, Read.isRadar,
          Read.mk.injEq, and_true]
        split <;> omega

/-- A handler starts the reads that it starts. -/
theorem radarsToCome_handle (σ : State) (key k : Text) (h : Handler) :
    (σ.handle k h).1.radarsToCome key = σ.radarsToCome key +
      ((h.acts.flatMap (Effect.reads k)).map (Read.isRadar key)).sum := by
  rw [handle_eq]
  simp only [State.radarsToCome, List.map_append, List.sum_append]
  omega

theorem radarsToCome_set {σ : State} {i : Nat} {p : Proc} (key : Text) (q : Proc)
    (hp : σ.procs[i]? = some p) :
    State.radarsToCome key { σ with procs := σ.procs.set i q } +
        (if p.session.text = key then p.underscores else 0) =
      σ.radarsToCome key + if q.session.text = key then q.underscores else 0 := by
  have hsum := sum_map_set (fun p => if p.session.text = key then p.underscores else 0) q hp
  simp only [State.radarsToCome]
  omega

/-- Only the callback of a radar chart sends one. -/
theorem radars_of_handle {σ : State} {key k : Text} {h : Handler}
    (hno : ∀ pl id, .emit .radar pl id ∉ h.acts) :
    ((σ.handle k h).2.map (Obs.isRadar key)).sum = 0 := by
  refine List.sum_eq_zero fun n hn => ?_
  obtain ⟨o, ho, rfl⟩ := List.mem_map.mp hn
  cases o with
  | threw e => rfl
  | sent k' ev pl id =>
      cases ev with
      | radar => exact absurd (sent_mem_handle.mp ho).2 (hno pl id)
      | progress => rfl
      | bar => rfl

/-- The callback of a read sends the radar chart if it was the read of it. -/
theorem radars_of_callback (σ : State) (key : Text) (r : Read) (live : Option SocketId)
    (content : Option Text) :
    ((σ.handle r.key (onRead r live content)).2.map (Obs.isRadar key)).sum ≤ r.isRadar key := by
  by_cases hradar : r.kind = .chart .hourHistogram
  · obtain ⟨k, kind⟩ := r
    cases hradar
    have hprint : (printError (readResult content)).acts.flatMap (Effect.obs k) = [] := by
      cases content <;> rfl
    rw [handle_eq, onRead_chart]
    cases live with
    | none => simp [hprint, Obs.isRadar]
    | some id =>
        cases fileValue content with
        | none => simp [hprint, Obs.isRadar]
        | some v => simp [hprint, Effect.obs, Chart.event, Obs.isRadar, Read.isRadar]
  · rw [radars_of_handle fun pl id h => ?_]
    · exact Nat.zero_le _
    · obtain ⟨_, c, v, hc, hev, _⟩ := emit_mem_onRead h
      cases c with
      | hourHistogram => exact hradar hc
      | timeline => cases hev

/-- What a step takes from the radar events that are to come, and adds to them. -/
theorem radars_of_move {σ : State} {i : Input} {r : State × List Obs} (key : Text)
    (h : Move H σ i r) :
    r.1.radarsToCome key + (r.2.map (Obs.isRadar key)).sum ≤
      σ.radarsToCome key + i.radarGain H key := by
  cases h with
  | newSession _ => exact Nat.le_refl _
  | refused _ => exact Nat.le_refl _
  | disconnect _ => exact Nat.le_refl _
  | connection _ _ _ =>
      simp only [State.radarsToCome, State.connection, Input.radarGain]
      split <;> simp [Read.isRadar]
  | upload _ _ =>
      simp only [State.radarsToCome, List.map_append, List.sum_append, List.map_cons,
        List.sum_cons, List.map_nil, List.sum_nil, Input.radarGain]
      have hsession : ∀ s u, (Proc.start H s u).session = s := fun _ _ => rfl
      rw [hsession]
      omega
  | formError _ _ =>
      rw [radarsToCome_handle, radars_of_handle fun _ _ h => by cases List.mem_singleton.mp h]
      exact Nat.le_refl _
  | @py i k p p' files hp hact =>
      have hset : State.radarsToCome key { σ with procs := σ.procs.set i p',
                                                  files := Function.update σ.files p.session.text
                                                    files } +
          (if p.session.text = key then p.underscores else 0) =
          σ.radarsToCome key + if p'.session.text = key then p'.underscores else 0 :=
        radarsToCome_set key p' hp
      have hless := underscores_act hact
      rw [(Proc.act_session hact).1] at hset
      simp only [List.map_nil, List.sum_nil, Input.radarGain]
      split at hset
      · omega
      · omega
  | @stdout i k p hp _ _ =>
      have hset := radarsToCome_set key { p with pipe := p.pipe.drop (k + 1) } hp
      have hreads := radar_reads_onStdoutData key (σ.live p.session.text) (p.pipe.take (k + 1))
        p.session.text
      have hcut : underscores (p.pipe.take (k + 1)) + underscores (p.pipe.drop (k + 1)) =
          underscores p.pipe := by
        rw [← underscores_append, List.take_append_drop]
      rw [radarsToCome_handle, radars_of_handle fun _ _ h => by cases (emit_mem_onStdoutData h).2]
      simp only [Proc.underscores, Input.radarGain] at hset ⊢
      by_cases hkey : p.session.text = key
      · rw [if_pos hkey] at hreads
        simp only [if_pos hkey] at hset
        omega
      · rw [if_neg hkey] at hreads
        simp only [if_neg hkey] at hset
        omega
  | @stderr i p hp _ _ =>
      have hset := radarsToCome_set key { p with err := p.err.drop 1 } hp
      have hreads : (onStderrData traceback).acts.flatMap (Effect.reads p.session.text) = [] := rfl
      rw [radarsToCome_handle, radars_of_handle (fun _ _ h => by cases List.mem_singleton.mp h),
        hreads]
      simp only [Proc.underscores] at hset
      simp only [List.map_nil, List.sum_nil, Input.radarGain]
      omega
  | @close i p hp _ _ _ =>
      have hset := radarsToCome_set key { p with closed := true } hp
      have hread : Read.isRadar key ⟨p.session.text, .close⟩ = 0 := by simp [Read.isRadar]
      rw [radarsToCome_handle, radars_of_handle (fun _ _ h => not_emit_onClose h),
        reads_onClose]
      simp only [Proc.underscores] at hset
      simp only [List.map_cons, List.map_nil, List.sum_cons, List.sum_nil, hread, Input.radarGain]
      omega
  | land hr _ =>
      have herase := sum_map_eraseIdx (Read.isRadar key) hr
      simp only [State.radarsToCome, List.map_append, List.sum_append, List.map_cons, List.sum_cons,
        List.map_nil, List.sum_nil, Input.radarGain]
      omega
  | @callback j x content hr _ =>
      have herase : ((σ.landed.eraseIdx j).map fun x => x.1.isRadar key).sum + x.isRadar key =
          (σ.landed.map fun x => x.1.isRadar key).sum := sum_map_eraseIdx _ hr
      have hsent := radars_of_callback { σ with landed := σ.landed.eraseIdx j } key x
        (σ.live x.key) content
      rw [radarsToCome_handle, reads_onRead]
      simp only [State.radarsToCome, List.map_nil, List.sum_nil, Input.radarGain] at hsent ⊢
      omega

/-! ## Over a run -/

/-- The upload is of a document, under the name of one. -/
def Upload.Readable (s : SessionID) (u : Upload) : Prop :=
  isHtmlPath (u.filepath s) = true ∧ ∃ d, u.doc = .ok d

/-- The input is an upload of the session. -/
def Input.isUploadOf (s : SessionID) : Input → Bool
  | .upload s' _ => s' == s
  | _ => false

theorem underscores_start_le {s : SessionID} {u : Upload} (h : u.Readable s) :
    (Proc.start H s u).underscores ≤ 1 := by
  obtain ⟨hpath, d, hd⟩ := h
  have hrun := underscores_analyse_le H s.text hpath d
  rw [← hd] at hrun
  have hnil : underscores [] = 0 := rfl
  simp only [Proc.underscores, Proc.start, hnil]
  omega

theorem sum_radarGain_le {s : SessionID} {is : List Input}
    (h : ∀ u, .upload s u ∈ is → u.Readable s) :
    (is.map (Input.radarGain H s.text)).sum ≤ is.countP (Input.isUploadOf s) := by
  induction is with
  | nil => exact Nat.le_refl 0
  | cons i is ih =>
      have hrest := ih fun u hu => h u (List.mem_cons_of_mem _ hu)
      have hone : i.radarGain H s.text ≤ if i.isUploadOf s then 1 else 0 := by
        cases i with
        | upload s' u =>
            by_cases hs : s' = s
            · subst hs
              have hle := underscores_start_le (H := H) (h u List.mem_cons_self)
              simpa [Input.radarGain, Input.isUploadOf] using hle
            · have hne : s'.text ≠ s.text := fun heq => hs (SessionID.ext heq)
              simp [Input.radarGain, hne]
        | _ => exact Nat.zero_le _
      rw [List.map_cons, List.sum_cons, List.countP_cons]
      omega

/-- In every run, a session whose uploads are documents, under names of documents,
gets no more radar events than it made uploads, and those that may still come
count. -/
theorem radars_le_uploads {is : List Input} {r : State × List Obs} {s : SessionID}
    (h : (machine H).exec System.anyInput State.initial is = some r)
    (hread : ∀ u, .upload s u ∈ is → u.Readable s) :
    r.1.radarsToCome s.text + (r.2.map (Obs.isRadar s.text)).sum ≤
      is.countP (Input.isUploadOf s) := by
  have hrun := System.exec_potential (State.radarsToCome s.text) (fun _ => 0)
    (Input.radarGain H s.text) (Obs.isRadar s.text)
    (fun hstep => radars_of_move s.text (move_of_step hstep)) h
  have hinit : State.initial.radarsToCome s.text = 0 := rfl
  have hgain := sum_radarGain_le (H := H) hread
  have hfree : (is.map fun _ : Input => 0).sum = 0 := by simp
  rw [hinit, hfree] at hrun
  omega

/-- One upload and the beginning of its run. -/
theorem radars_le_uploads_one_tab :
    ∃ r, (machine .insertion).exec System.anyInput State.initial (uploadInputs oneTab) = some r ∧
      r.1.radarsToCome firstSession.text + (r.2.map (Obs.isRadar firstSession.text)).sum ≤ 1 := by
  obtain ⟨r, hr⟩ : ∃ r, (machine .insertion).exec System.anyInput State.initial
      (uploadInputs oneTab) = some r := Option.isSome_iff_exists.mp (by decide +kernel)
  have hread : ∀ u, Input.upload firstSession u ∈ uploadInputs oneTab →
      u.Readable firstSession := by
    intro u hu
    have hu' : u = sampleUpload := by simpa [uploadInputs, oneTab] using hu
    rw [hu']
    exact ⟨by decide +kernel, _, rfl⟩
  have hone : (uploadInputs oneTab).countP (Input.isUploadOf firstSession) = 1 := by
    simp [uploadInputs, oneTab, Input.isUploadOf]
  exact ⟨r, hr, hone ▸ radars_le_uploads hr hread⟩

end Server
