import FbTesting.Analyser.Blocks
import FbTesting.Server.Drain
import FbTesting.Server.Results

/-!
# Prompt delivery

What an analyser writes may be cut and delayed at will, and so may the reads that it
starts.  The least the program has to do for a session is to work when nothing is
delayed: every flush arrives at once as one chunk, and the read that the chunk starts
takes its file and comes back before anything else.

`serve` says what is sent then, over the blocks of an analyser.  The server has the
run in which this is what it sends (`leads_of_serve`), in any state in which the
session has a tab, whatever else is under way.
-/

namespace Server

open Base Node Analyser Python

/-! ## What is sent -/

/-- An event and what it carries. -/
abbrev Sending := Event × Payload

/-- What is observed of it. -/
def Sending.obs (key : Text) (id : SocketId) (x : Sending) : Obs := .sent key x.1 x.2 id

/-- The chart that a chunk names. -/
def named (chunk : Text) : Option Chart :=
  if chunk.head? = some '-' then none else chartOf (beforeReturn chunk)

/-- The progress event of a chunk. -/
def progressOf (chunk : Text) : List Sending :=
  (progressMatch chunk).toList.map fun t => (.progress, .text t)

/-- What is sent for a chunk, if the file of the chart that it names is JSON. -/
def chunkEvents (fs : OutFile → Option Text) (chunk : Text) : Option (List Sending) :=
  match named chunk with
  | none => some (progressOf chunk)
  | some c => (fileValue (fs c.file)).map fun v => progressOf chunk ++ [(c.event, .json v)]

/-- What is sent over blocks, and the files after them.  `pending` is in the buffer at
the start, and nothing may be in it at the end. -/
def serve : (OutFile → Option Text) → Text → List Block →
    Option (List Sending × (OutFile → Option Text))
  | fs, pending, [] => if pending = [] then some ([], fs) else none
  | fs, pending, .say t :: bs =>
      (chunkEvents fs (pending ++ t)).bind fun es =>
        (serve fs [] bs).map fun r => (es ++ r.1, r.2)
  | fs, pending, .dump f v :: bs => serve (Function.update fs f (some v.dump)) pending bs

theorem serve_append : ∀ (bs : List Block) {cs : List Block} {fs : OutFile → Option Text}
    {pending : Text} {r q : List Sending × (OutFile → Option Text)},
    serve fs pending bs = some r → serve r.2 [] cs = some q →
      serve fs pending (bs ++ cs) = some (r.1 ++ q.1, q.2)
  | [], cs, fs, pending, r, q, h, hq => by
      rw [serve] at h
      obtain ⟨rfl, h⟩ := Option.ite_none_right_eq_some.mp h
      cases h
      exact hq
  | .say t :: bs, cs, fs, pending, r, q, h, hq => by
      obtain ⟨es, hes, h⟩ := Option.bind_eq_some_iff.mp h
      obtain ⟨x, hx, rfl⟩ := Option.map_eq_some_iff.mp h
      rw [List.cons_append, serve, hes, Option.bind_some, serve_append bs hx hq]
      simp
  | .dump f v :: bs, cs, fs, pending, r, q, h, hq => serve_append bs h hq

/-! ## Leading from state to state -/

variable {H : HashOrder} {σ τ υ : State}

/-- Internal steps lead from a state to another, and this is observed. -/
def Leads (H : HashOrder) (σ τ : State) (os : List Obs) : Prop :=
  ∃ is, (∀ i ∈ is, i.internal = true) ∧
    (machine H).exec System.anyInput σ is = some (τ, os)

theorem Leads.refl (σ : State) : Leads H σ σ [] :=
  ⟨[], fun _ hi => absurd hi List.not_mem_nil, rfl⟩

theorem Leads.trans {os os' : List Obs} (h : Leads H σ τ os) (h' : Leads H τ υ os') :
    Leads H σ υ (os ++ os') := by
  obtain ⟨is, his, hrun⟩ := h
  obtain ⟨js, hjs, hrun'⟩ := h'
  refine ⟨is ++ js, fun i hi => ?_, System.exec_append hrun hrun'⟩
  cases List.mem_append.mp hi with
  | inl hfirst => exact his i hfirst
  | inr hlater => exact hjs i hlater

theorem Leads.move {i : Input} {os : List Obs} (h : Move H σ i (τ, os))
    (hi : i.internal = true) : Leads H σ τ os := by
  have hstep : (machine H).step σ i = some (τ, os) :=
    step_of_move h fun id heq => by rw [heq] at hi; cases hi
  refine ⟨[i], fun j hj => ?_, System.exec_singleton trivial hstep⟩
  rw [List.mem_singleton.mp hj]
  exact hi

/-- A silent way before another. -/
theorem Leads.after {os : List Obs} (h : Leads H σ τ []) (h' : Leads H τ υ os) :
    Leads H σ υ os := h.trans h'

/-! ## The last analyser -/

/-- The state with one more analyser, and with these files of its session. -/
def State.serving (σ : State) (p : Proc) (fs : OutFile → Option Text) : State :=
  { σ with procs := σ.procs ++ [p], files := Function.update σ.files p.session.text fs }

variable {p p' : Proc} {fs fs' : OutFile → Option Text}

theorem serving_proc : (σ.serving p fs).procs[σ.procs.length]? = some p :=
  List.getElem?_concat_length

theorem serving_set (h : p'.session = p.session) :
    { σ.serving p fs with
      procs := (σ.serving p fs).procs.set σ.procs.length p'
      files := Function.update (σ.serving p fs).files p.session.text fs' } =
      σ.serving p' fs' := by
  simp [State.serving, h, Function.update_idem]

/-- An act of the last analyser. -/
theorem leads_act {k : Nat} (h : p.act σ.alive k fs = some (p', fs')) :
    Leads H (σ.serving p fs) (σ.serving p' fs') [] := by
  have hfiles : (σ.serving p fs).files p.session.text = fs := Function.update_self _ _ _
  have hact : p.act σ.alive k ((σ.serving p fs).files p.session.text) = some (p', fs') := by
    rw [hfiles]
    exact h
  have hmove := Move.py (H := H) serving_proc hact
  rw [serving_set (Proc.act_session h).1] at hmove
  exact .move hmove rfl

/-- A dump leaves the file with what was dumped. -/
theorem leads_dump {f : OutFile} {t : Text} {rest : List Act}
    (h : p.todo = .open f :: .write f t :: .close f :: rest) :
    Leads H (σ.serving p fs)
      (σ.serving { p with todo := rest, offset := t.length } (Function.update fs f (some t)))
      [] := by
  have hopen : p.act σ.alive 0 fs = some ({ p with
      todo := .write f t :: .close f :: rest, offset := 0 }, Function.update fs f (some [])) := by
    rw [Proc.act, h]
  have hwrite : Proc.act { p with todo := .write f t :: .close f :: rest, offset := 0 } σ.alive
      t.length (Function.update fs f (some [])) =
        some ({ p with todo := .close f :: rest, offset := t.length },
          Function.update fs f (some t)) := by
    have htake : t.take (t.length + 1) = t := List.take_of_length_le (Nat.le_succ _)
    simp [Proc.act, writeAt, Function.update_idem, htake]
  have hclose : Proc.act { p with todo := .close f :: rest, offset := t.length } σ.alive 0
      (Function.update fs f (some t)) =
        some ({ p with todo := rest, offset := t.length }, Function.update fs f (some t)) := rfl
  exact (leads_act hopen).after ((leads_act hwrite).after (leads_act hclose))

/-! ## A chunk and its read -/

theorem eraseIdx_concat_length {α : Type} (l : List α) (a : α) :
    (l ++ [a]).eraseIdx l.length = l := by
  simp [List.eraseIdx_append_of_length_le]

/-- The read that was started last can be over before anything else. -/
theorem leads_read (σ : State) (halive : σ.alive = true) (r : Read) :
    Leads H { σ with started := σ.started ++ [r] }
      (σ.handle r.key (onRead r (σ.live r.key) (σ.files r.key r.file))).1
      (σ.handle r.key (onRead r (σ.live r.key) (σ.files r.key r.file))).2 := by
  have hland : Move H { σ with started := σ.started ++ [r] } (.land σ.started.length) _ :=
    .land List.getElem?_concat_length halive
  have hcall : Move H { σ with landed := σ.landed ++ [(r, σ.files r.key r.file)] }
      (.callback σ.landed.length) _ := .callback List.getElem?_concat_length halive
  rw [eraseIdx_concat_length] at hland hcall
  exact (Leads.move hland rfl).after (Leads.move hcall rfl)

/-- What a handler of standard output does with a socket: it sends the progress, and
starts the read of the chart that is named. -/
theorem handle_onStdoutData (σ : State) (key : Text) (id : SocketId) (data : Text) :
    σ.handle key (onStdoutData (some id) data) =
      ({ σ with started := σ.started ++ (named data).toList.map fun c => ⟨key, .chart c⟩ },
        (progressOf data).map (Sending.obs key id)) := by
  have hsend : (sendProgress (some id) data).result = .ok () ∧
      (sendProgress (some id) data).acts.foldl (State.perform key) σ = σ ∧
      (sendProgress (some id) data).acts.flatMap (Effect.obs key) =
        (progressOf data).map (Sending.obs key id) := by
    rw [sendProgress, progressOf]
    cases progressMatch data <;> exact ⟨rfl, rfl, rfl⟩
  have hlook : (lookUpChart data).acts.foldl (State.perform key) σ =
        { σ with started := σ.started ++ (named data).toList.map fun c => ⟨key, .chart c⟩ } ∧
      (lookUpChart data).acts.flatMap (Effect.obs key) = [] := by
    rw [lookUpChart, named]
    split
    · exact ⟨by simp [Traced.perform, State.perform], rfl⟩
    · cases chartOf (beforeReturn data) with
      | none => exact ⟨by simp, rfl⟩
      | some c => exact ⟨rfl, rfl⟩
  obtain ⟨hok, hfold, hobs⟩ := hsend
  rw [onStdoutData, Traced.bind_ok hok, State.handle, lookUpChart_result, List.foldl_append, hfold,
    hlook.1, List.flatMap_append, hobs, hlook.2, List.append_nil]

/-- The callback of a read of a chart, with a socket and a file that is JSON. -/
theorem handle_chart (σ : State) (key : Text) (c : Chart) (id : SocketId) {content : Option Text}
    {v : Json} (h : fileValue content = some v) :
    σ.handle key (onRead ⟨key, .chart c⟩ (some id) content) =
      (σ, [Sending.obs key id (c.event, .json v)]) := by
  obtain ⟨t, rfl, _⟩ := Option.bind_eq_some_iff.mp h
  rw [onRead_chart, h]
  rfl

/-- What was flushed arrives as one chunk, and the read that it starts is over before
anything else. -/
theorem leads_chunk {id : SocketId} (halive : σ.alive = true)
    (hlive : σ.live p.session.text = some id) (hpipe : p.pipe ≠ []) {es : List Sending}
    (hes : chunkEvents fs p.pipe = some es) :
    Leads H (σ.serving p fs) (σ.serving { p with pipe := [] } fs)
      (es.map (Sending.obs p.session.text id)) := by
  have harrive : Move H (σ.serving p fs) (.stdout σ.procs.length p.pipe.length) _ :=
    .stdout serving_proc halive hpipe
  have hset : { σ.serving p fs with
      procs := (σ.serving p fs).procs.set σ.procs.length { p with pipe := [] } } =
      σ.serving { p with pipe := [] } fs := by
    simp [State.serving]
  have hserving : (σ.serving p fs).live p.session.text = some id := hlive
  rw [List.take_of_length_le (Nat.le_succ _), List.drop_of_length_le (Nat.le_succ _), hserving,
    hset, handle_onStdoutData] at harrive
  rw [chunkEvents] at hes
  cases hname : named p.pipe with
  | none =>
      rw [hname] at hes harrive
      cases hes
      simpa using Leads.move harrive rfl
  | some c =>
      rw [hname] at hes harrive
      obtain ⟨v, hv, rfl⟩ := Option.map_eq_some_iff.mp hes
      have hread := leads_read (H := H) (σ.serving { p with pipe := [] } fs) halive
        ⟨p.session.text, .chart c⟩
      have hfile : (σ.serving { p with pipe := [] } fs).files p.session.text
          (Read.file ⟨p.session.text, .chart c⟩) = fs c.file := by
        cases c <;> exact congrFun (Function.update_self _ _ _) _
      have hlive' : (σ.serving { p with pipe := [] } fs).live p.session.text = some id := hlive
      rw [hfile, hlive', handle_chart _ _ _ _ hv] at hread
      rw [List.map_append]
      exact (Leads.move harrive rfl).trans hread

theorem chunkEvents_nil {es : List Sending} (h : chunkEvents fs [] = some es) : es = [] := by
  cases h
  rfl

/-- What is said arrives with what was in the buffer. -/
theorem leads_say {id : SocketId} (halive : σ.alive = true)
    (hlive : σ.live p.session.text = some id) (hpipe : p.pipe = []) {t : Text} {rest : List Act}
    (htodo : p.todo = .stdout t :: .flush :: rest) {es : List Sending}
    (hes : chunkEvents fs (p.buffer ++ t) = some es) :
    Leads H (σ.serving p fs) (σ.serving { p with todo := rest, buffer := [] } fs)
      (es.map (Sending.obs p.session.text id)) := by
  have hwrite : p.act σ.alive 0 fs =
      some ({ p with todo := .flush :: rest, buffer := p.buffer ++ t }, fs) := by
    rw [Proc.act, htodo]
  have hflush : Proc.act { p with todo := .flush :: rest, buffer := p.buffer ++ t } σ.alive 0 fs =
      some ({ p with todo := rest, buffer := [], pipe := p.buffer ++ t }, fs) := by
    simp [Proc.act, hpipe, halive]
  have hempty : { p with todo := rest, buffer := [] } =
      { p with todo := rest, buffer := [], pipe := [] } := by rw [hpipe]
  rw [hempty]
  refine (leads_act hwrite).after ((leads_act hflush).after ?_)
  by_cases hchunk : p.buffer ++ t = []
  · rw [hchunk] at hes ⊢
    rw [chunkEvents_nil hes]
    exact Leads.refl _
  · exact leads_chunk (p := { p with todo := rest, buffer := [], pipe := p.buffer ++ t }) halive
      hlive hchunk hes

/-! ## A whole run -/

/-- Over blocks the server has the run in which it sends what `serve` says. -/
theorem leads_of_serve {id : SocketId} (halive : σ.alive = true) {rest : List Act} :
    ∀ {bs : List Block} {p : Proc} {fs : OutFile → Option Text}
      {r : List Sending × (OutFile → Option Text)}, σ.live p.session.text = some id →
      p.pipe = [] → p.todo = bs.flatMap Block.acts ++ rest → serve fs p.buffer bs = some r →
      ∃ n, Leads H (σ.serving p fs)
        (σ.serving { p with todo := rest, buffer := [], offset := n } r.2)
        (r.1.map (Sending.obs p.session.text id))
  | [], p, fs, r, _, _, htodo, hserve => by
      rw [serve] at hserve
      obtain ⟨hbuffer, h⟩ := Option.ite_none_right_eq_some.mp hserve
      cases h
      rw [List.flatMap_nil, List.nil_append] at htodo
      refine ⟨p.offset, ?_⟩
      rw [← htodo, ← hbuffer]
      exact Leads.refl _
  | .say t :: bs, p, fs, r, hlive, hpipe, htodo, hserve => by
      obtain ⟨es, hes, h⟩ := Option.bind_eq_some_iff.mp hserve
      obtain ⟨q, hq, rfl⟩ := Option.map_eq_some_iff.mp h
      obtain ⟨n, hrest⟩ := leads_of_serve halive
        (p := { p with todo := bs.flatMap Block.acts ++ rest, buffer := [] }) hlive hpipe rfl hq
      refine ⟨n, ?_⟩
      rw [List.map_append]
      exact (leads_say halive hlive hpipe htodo hes).trans hrest
  | .dump f v :: bs, p, fs, r, hlive, hpipe, htodo, hserve => by
      obtain ⟨n, hrest⟩ := leads_of_serve halive
        (p := { p with todo := bs.flatMap Block.acts ++ rest, offset := v.dump.length })
        hlive hpipe rfl hserve
      exact ⟨n, (leads_dump htodo).after hrest⟩

/-- What the handler of the end of an analyser does. -/
theorem handle_onClose (σ : State) (key : Text) (code : Nat) :
    σ.handle key (onClose code) = ({ σ with started := σ.started ++ [⟨key, .close⟩] }, []) := by
  rw [onClose_eq, printCode]
  by_cases hcode : code ≠ 0
  · rw [if_pos hcode]
    rfl
  · rw [if_neg hcode]
    rfl

/-- The callback after an analyser, with a file that is JSON. -/
theorem handle_close (σ : State) (key : Text) (live : Option SocketId) {content : Option Text}
    {v : Json} (h : fileValue content = some v) :
    σ.handle key (onRead ⟨key, .close⟩ live content) =
      ({ σ with userData := Function.update σ.userData key (some v) }, []) := by
  obtain ⟨t, rfl, ht⟩ := Option.bind_eq_some_iff.mp h
  rw [onRead_close]
  simp [storeParsed_eq, ht, State.handle, State.perform, Effect.obs]

/-- An analyser that has only its last flush before it is reported as closed, and what
it has stored is read. -/
theorem leads_end (halive : σ.alive = true) (htodo : p.todo = [.flush]) (hbuffer : p.buffer = [])
    (hpipe : p.pipe = []) (herr : p.err = []) (hopen : p.closed = false) {v : Json}
    (hv : fileValue (fs .messages) = some v) :
    Leads H (σ.serving p fs)
      { σ.serving { p with todo := [], closed := true } fs with
        userData := Function.update σ.userData p.session.text (some v) } [] := by
  have hflush : p.act σ.alive 0 fs = some ({ p with todo := [] }, fs) := by
    rw [Proc.act, htodo]
    simp [hpipe, hbuffer]
  have hdrained : Proc.drained { p with todo := [] } = true := by
    simp [Proc.drained, hpipe, herr]
  have hclose : Move H (σ.serving { p with todo := [] } fs) (.close σ.procs.length) _ :=
    .close serving_proc halive hdrained hopen
  have hset : { σ.serving { p with todo := [] } fs with
      procs := (σ.serving { p with todo := [] } fs).procs.set σ.procs.length
        { p with todo := [], closed := true } } =
      σ.serving { p with todo := [], closed := true } fs := by
    simp [State.serving]
  have hread := leads_read (H := H) (σ.serving { p with todo := [], closed := true } fs) halive
    ⟨p.session.text, .close⟩
  have hfile : (σ.serving { p with todo := [], closed := true } fs).files p.session.text
      .messages = fs .messages := congrFun (Function.update_self _ _ _) _
  have hvalue : fileValue ((σ.serving { p with todo := [], closed := true } fs).files
      p.session.text (Read.file ⟨p.session.text, .close⟩)) = some v := by
    rw [← hv]
    exact congrArg fileValue hfile
  rw [hset, handle_onClose] at hclose
  rw [handle_close _ _ _ hvalue] at hread
  exact (leads_act hflush).after ((Leads.move hclose rfl).after hread)

end Server
