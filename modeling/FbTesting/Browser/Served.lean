import FbTesting.Browser.Charts
import FbTesting.Browser.Progress
import FbTesting.Server.Prompt

/-!
# An upload that is served

When nothing is delayed, an upload that the analyser can read is served: from any state
in which the tab that the session has connected last is connected, whatever else is under
way, the server has the run in which it sends the percentages below 100, the time line
and the hour histogram, and stores the chats of the document (`upload_can_be_served`).
The page then shows both charts.
-/

namespace Browser

open Base Node Analyser Python Server

/-! ## What is sent over a run -/

/-- The percentages that are sent over `n` threads. -/
def percentages (n : Nat) : List Text :=
  (List.range' 2 (n - 1)).filterMap fun i =>
    if 100 * i / n < 100 then some (decimal (100 * i / n)) else none

/-- What is sent for these results of a document of `n` threads. -/
def sendings (n : Nat) (r : Results) : List Sending :=
  (percentages n).map (fun t => (.progress, .text t)) ++
    [(.bar, .json r.timeline), (.radar, .json r.hourHistogram)]

/-- A chunk that begins with a letter that begins no name of a chart names none. -/
theorem named_cons {c : Char} (h : c ≠ 'h') (t : c ≠ 't') (data : Text) :
    named (c :: data) = none := by
  rw [named]
  split
  · rfl
  · cases hchart : chartOf (beforeReturn (c :: data)) with
    | none => rfl
    | some d =>
        have hkey := chartOf_eq_some_iff.mp hchart
        have hhead : (beforeReturn (c :: data)).head? = d.key.head? := by rw [hkey]
        rw [beforeReturn, List.takeWhile_cons] at hhead
        split at hhead
        · cases d with
          | hourHistogram => exact absurd (Option.some.inj hhead) h
          | timeline => exact absurd (Option.some.inj hhead) t
        · cases d <;> cases hhead

theorem named_progressLine (i n : Nat) : named (progressLine i n) = none := by
  rw [progressLine]
  cases hd : decimal (100 * i / n) with
  | nil => exact absurd hd (decimal_ne_nil _)
  | cons c t =>
      have hc : c.isDigit = true := isDigit_of_mem_decimal (by rw [hd]; exact List.mem_cons_self)
      refine named_cons ?_ ?_ _
      · rintro rfl
        exact absurd hc (by decide)
      · rintro rfl
        exact absurd hc (by decide)

variable {fs : OutFile → Option Text}

/-- A chunk that names nothing sends its progress. -/
theorem chunkEvents_of_none {chunk : Text} (h : named chunk = none) :
    chunkEvents fs chunk = some (progressOf chunk) := by
  rw [chunkEvents, h]

/-- A chunk that begins with such a letter, which is no digit, sends nothing. -/
theorem chunkEvents_quiet {c : Char} (hh : c ≠ 'h') (ht : c ≠ 't') (hspace : isWhiteSpace c = false)
    (hdigit : c.isDigit = false) (data : Text) : chunkEvents fs (c :: data) = some [] := by
  rw [chunkEvents_of_none (named_cons hh ht data), progressOf, progressMatch_cons hspace hdigit]
  rfl

/-- Lines that name nothing send their progress. -/
theorem serve_roundBlocks {line : Nat → Text} (hline : ∀ i, named (line i) = none) (j : Nat) :
    ∀ count, serve fs [] (roundBlocks line count j) =
      some ((List.range' (count + 1) j).flatMap fun i => progressOf (line i), fs) := by
  induction j with
  | zero => exact fun count => rfl
  | succ j ih =>
      intro count
      have hcons : roundBlocks line count (j + 1) =
          .say (line (count + 1)) :: roundBlocks line (count + 1) j := by
        simp [roundBlocks, List.range'_succ]
      rw [hcons, serve, List.nil_append, chunkEvents_of_none (hline _), Option.bind_some, ih,
        Option.map_some, List.range'_succ, List.flatMap_cons]

/-- Lines of progress that begin with a dash send nothing. -/
theorem serve_dashes {line : Nat → Text} (hline : ∀ i, ∃ t, line i = '-' :: t) (count j : Nat) :
    serve fs [] (roundBlocks line count j) = some ([], fs) := by
  have hname : ∀ i, named (line i) = none := by
    intro i
    obtain ⟨t, ht⟩ := hline i
    rw [ht]
    exact named_cons (by decide) (by decide) t
  have hquiet : ∀ i, progressOf (line i) = [] := by
    intro i
    obtain ⟨t, ht⟩ := hline i
    rw [progressOf, ht, progressMatch_cons (by decide) (by decide)]
    rfl
  rw [serve_roundBlocks hname]
  simp [hquiet]

/-- The lines of the extraction send the percentages.  The first one comes with what
was in the buffer. -/
theorem serve_extraction (fs : OutFile → Option Text) {n : Nat} (hn : n ≠ 0) :
    serve fs "yes\n".toList (roundBlocks (fun i => progressLine i n) 0 n) =
      some ((percentages n).map fun t => (.progress, .text t), fs) := by
  obtain ⟨m, rfl⟩ := Nat.exists_eq_succ_of_ne_zero hn
  have hcons : roundBlocks (fun i => progressLine i (m + 1)) 0 (m + 1) =
      .say (progressLine 1 (m + 1)) :: roundBlocks (fun i => progressLine i (m + 1)) 1 m := by
    simp [roundBlocks, List.range'_succ]
  have hfirst : chunkEvents fs ("yes\n".toList ++ progressLine 1 (m + 1)) = some [] :=
    chunkEvents_quiet (by decide) (by decide) (by decide) (by decide) _
  have hevents : ∀ i, progressOf (progressLine i (m + 1)) =
      ((if 100 * i / (m + 1) < 100 then some (decimal (100 * i / (m + 1))) else none).map
        fun t => ((.progress, .text t) : Sending)).toList := by
    intro i
    rw [progressOf, progressMatch_progressLine]
    split <;> rfl
  rw [Nat.succ_eq_add_one, hcons, serve, hfirst, Option.bind_some,
    serve_roundBlocks fun i => named_progressLine i (m + 1), percentages, List.map_filterMap,
    List.filterMap_eq_flatMap_toList]
  simp only [hevents, Option.map_some, List.nil_append, Nat.add_sub_cancel]

/-- The files after the dumps of these results. -/
theorem update_dumps (fs : OutFile → Option Text) (r : Results) :
    Function.update (Function.update (Function.update fs .messages (some r.messages.dump))
      .timeline (some r.timeline.dump)) .hourHistogram (some r.hourHistogram.dump) =
        fun f => some (r.text f) := by
  funext f
  cases f <;> rfl

/-- A chart that is dumped and named is sent. -/
theorem serve_chart (c : Chart) {v : Json} (hv : v.Exact) (fs : OutFile → Option Text) :
    serve fs [] [Block.dump c.file v, Block.say c.key] =
      some ([(c.event, .json v)], Function.update fs c.file (some v.dump)) := by
  have hfile : fileValue (some v.dump) = some v := Json.parse_dump hv
  have hname : named c.key = some c := by cases c <;> rfl
  have hquiet : progressOf c.key = [] := by cases c <;> rfl
  rw [serve, serve, List.nil_append, chunkEvents, hname]
  simp [hfile, hquiet, serve]

/-- What is sent over all blocks. -/
theorem serve_normalBlocks (fs : OutFile → Option Text) {n : Nat} (l : Nat) {r : Results}
    (hn : n ≠ 0) (hexact : ∀ f, (r.json f).Exact) :
    serve fs "yes\n".toList (normalBlocks n l r) =
      some (sendings n r, fun f => some (r.text f)) := by
  have hstored : serve fs [] [Block.dump .messages r.messages,
      Block.say "finished creating JSON chat structure\n".toList,
      Block.say "Starting analysis for time line plot...".toList] =
        some ([], Function.update fs .messages (some r.messages.dump)) := rfl
  have hbar : ∀ fs, serve fs [] [Block.say "All messages have been analyzed.".toList,
      Block.dump .timeline r.timeline, Block.say "timeline".toList] =
        some ([(.bar, .json r.timeline)],
          Function.update fs .timeline (some r.timeline.dump)) := by
    intro fs
    have hquiet : chunkEvents fs "All messages have been analyzed.".toList = some [] := rfl
    rw [serve, List.nil_append, hquiet, Option.bind_some]
    exact congrArg (Option.map _) (serve_chart .timeline (hexact .timeline) fs)
  have hradar := serve_chart .hourHistogram (hexact .hourHistogram)
  have htimeline : ∀ fs, serve fs [] (roundBlocks (fun i => timelineLine i l) 0 (l - 1)) =
      some ([], fs) := fun fs => serve_dashes (fun i => ⟨_, rfl⟩) 0 (l - 1)
  have hhour : ∀ fs, serve fs [] (roundBlocks (fun i => hourLine i l) 1 l) =
      some ([], fs) := fun fs => serve_dashes (fun i => ⟨_, rfl⟩) 1 l
  have hall := serve_append _ (serve_extraction fs hn) (serve_append _ hstored
    (serve_append _ (htimeline _) (serve_append _ (hbar _)
      (serve_append _ (hhour _) (hradar _)))))
  rw [normalBlocks]
  refine hall.trans ?_
  rw [sendings, ← update_dumps]
  rfl

/-! ## The run of an upload -/

variable {H : HashOrder} {σ : State} {s : SessionID} {u : Upload} {r : Results} {id : SocketId}

theorem serving_start (σ : State) (s : SessionID) (u : Upload) :
    { σ with procs := σ.procs ++ [Proc.start H s u] } =
      σ.serving (Proc.start H s u) (σ.files s.text) := by
  have hsession : (Proc.start H s u).session = s := rfl
  simp [State.serving, hsession]

/-- The analyser of an upload that was served. -/
def served (H : HashOrder) (s : SessionID) (u : Upload) (n : Nat) : Proc :=
  { Proc.start H s u with todo := [], offset := n, closed := true }

/-- An analyser with results is served. -/
theorem leads_served (halive : σ.alive = true) (hlive : σ.live s.text = some id)
    (hres : u.results H s = some r) :
    ∃ doc n, u.doc = .ok doc ∧
      Leads H (σ.serving (Proc.start H s u) (σ.files s.text))
        { σ.serving (served H s u n) (fun f => some (r.text f)) with
          userData := Function.update σ.userData s.text (some r.messages) }
        ((sendings doc.length r).map (Sending.obs s.text id)) := by
  obtain ⟨doc, l, hdoc, hne, hrun⟩ := analyse_blocks hres
  have hexact := fun f => (results_exact hres f).1
  have hlength : doc.length ≠ 0 := fun h => hne (List.length_eq_zero_iff.mp h)
  have htodo : (Proc.start H s u).todo = .stdout "yes\n".toList ::
      ((normalBlocks doc.length l r).flatMap Block.acts ++ [.flush]) := congrArg Analysis.acts hrun
  have hyes : (Proc.start H s u).act σ.alive 0 (σ.files s.text) = some ({ Proc.start H s u with
      todo := (normalBlocks doc.length l r).flatMap Block.acts ++ [.flush]
      buffer := "yes\n".toList }, σ.files s.text) := by
    rw [Proc.act, htodo]
    rfl
  obtain ⟨n, hserve⟩ := leads_of_serve (H := H) (p := { Proc.start H s u with
    todo := (normalBlocks doc.length l r).flatMap Block.acts ++ [.flush]
    buffer := "yes\n".toList }) halive hlive rfl rfl
    (serve_normalBlocks (σ.files s.text) l hlength hexact)
  have hend : Leads H (σ.serving { Proc.start H s u with todo := [.flush], offset := n }
      fun f => some (r.text f)) _ _ :=
    leads_end halive rfl rfl rfl rfl rfl (Json.parse_dump (hexact .messages))
  have hall := (leads_act hyes).after (hserve.trans hend)
  rw [List.append_nil] at hall
  exact ⟨doc, n, hdoc, hall⟩

/-- The events with charts for the socket. -/
theorem chartsAt_sendings (id : SocketId) (key : Text) (n : Nat) (r : Results) :
    chartsAt id ((sendings n r).map (Sending.obs key id)) =
      [(.timeline, .json r.timeline), (.hourHistogram, .json r.hourHistogram)] := by
  rw [chartsAt, sendings, List.filterMap_map, List.filterMap_append, List.filterMap_map]
  simp [Function.comp_def, Sending.obs, chartAt]

/-- The two tabs of a further time line and a further hour histogram. -/
theorem shown_two_more {α : Type} (evs : List (Chart × α)) (t d : α) :
    (Tabs.after (evs ++ [(.timeline, t), (.hourHistogram, d)])).shown evs.length =
        some ⟨.timeline, datasetsOf .timeline evs ++ [t]⟩ ∧
      (Tabs.after (evs ++ [(.timeline, t), (.hourHistogram, d)])).shown (evs.length + 1) =
        some ⟨.hourHistogram, [d]⟩ := by
  obtain ⟨_, _, hshown, _⟩ := tabs_after_events (evs ++ [(.timeline, t), (.hourHistogram, d)])
  have htimeline := hshown evs.length (.timeline, t) (by simp)
  have hhour := hshown (evs.length + 1) (.hourHistogram, d) (by simp)
  refine ⟨htimeline.trans ?_, hhour.trans ?_⟩
  · simp [visible, datasetsOf]
  · simp [visible, datasetsOf]

/-- A form that ends uploads what it has received. -/
theorem step_formEnd {S : Host} {σ : Site} (h : InPlace S σ) {j : Nat} {f : Form}
    (hf : σ.forms[j]? = some f) (hstage : f.stage = .receiving) (halive : σ.core.alive = true)
    (hknown : f.session ∈ σ.core.sessions) :
    ∃ τ : Site, (site S).step σ (.formEnd j) = some (τ, []) ∧
      τ.core = σ.core.serving (Proc.start S.order f.session (f.upload S))
        (σ.core.files f.session.text) ∧ InPlace S τ := by
  have hneeded : ∀ n, f.stage ≠ .read n := fun n hn => by rw [hstage] at hn; cases hn
  have hfound := h.found_eq (List.mem_of_getElem? hf) hneeded
  have hupload : step S.order σ.core (.upload f.session (σ.found S f)) = some _ :=
    step_of_move (.upload halive hknown) fun _ => nofun
  refine ⟨_, step_of_siteMove (.formEnd hf hstage hupload), ?_, ?_⟩
  · rw [hfound, ← serving_start]
  · rw [hfound]
    exact h.formEnd hf hstage

/-- From any state of a run whose uploads are not disturbed, when the tab that a session
has connected last is connected, a form with a file that has results can end and be
served.  Then the server has sent the percentages below 100, the time line and the hour
histogram to that tab, and nothing else has been sent.  The files and the data of the
session are those of the upload, and the rest of what the server holds is as it was.
Whatever the page has shown before, its last tab shows the new hour histogram, and the tab
before it all time lines, with the new one at the end. -/
theorem upload_can_be_served {S : Host} {σ : Site}
    (h : (site S).Reach (Undisturbed S System.anyInput) σ) {j : Nat} {f : Form}
    (hf : σ.forms[j]? = some f) (hstage : f.stage = .receiving) (halive : σ.core.alive = true)
    (hknown : f.session ∈ σ.core.sessions) (hlive : σ.core.live f.session.text = some id)
    (hres : (f.upload S).results S.order f.session = some r) :
    ∃ (doc : Document) (n : Nat) (is : List Input) (τ : Site) (os : List Obs),
      (f.upload S).doc = .ok doc ∧ (∀ i ∈ is, i.internal = true) ∧
      (site S).exec (Undisturbed S System.anyInput) σ (.formEnd j :: is.map .core) =
        some (τ, os) ∧
      τ.core = { σ.core.serving (served S.order f.session (f.upload S) n)
          (fun out => some (r.text out)) with
        userData := Function.update σ.core.userData f.session.text (some r.messages) } ∧
      os = (sendings doc.length r).map (Sending.obs f.session.text id) ∧
      ∀ evs, (Tabs.after (evs ++ chartsAt id os)).shown evs.length =
          some ⟨.timeline, datasetsOf .timeline evs ++ [.json r.timeline]⟩ ∧
        (Tabs.after (evs ++ chartsAt id os)).shown (evs.length + 1) =
          some ⟨.hourHistogram, [.json r.hourHistogram]⟩ := by
  obtain ⟨τ, hstep, hcore, hplace⟩ := step_formEnd (core_of_reach h).2 hf hstage halive hknown
  obtain ⟨doc, n, hdoc, is, his, hrun⟩ := leads_served halive hlive hres
  rw [← hcore] at hrun
  obtain ⟨υ, hexec, hend, _⟩ :=
    site_exec_of_exec hplace (fun i hi => isUpload_of_internal (his i hi)) hrun
  refine ⟨doc, n, is, υ, _, hdoc, his, ?_, hend, rfl, fun evs => ?_⟩
  · exact System.exec_cons_eq_some.mpr ⟨fun _ _ => trivial, _, hstep, _, hexec, rfl⟩
  · rw [chartsAt_sendings]
    exact shown_two_more evs _ _

/-- A session with a tab has sent its page. -/
def receivedSite : Site :=
  (site sampleHost).after (Undisturbed sampleHost System.anyInput)
    [.core (.newSession .least), .core (.handshake 1 (some (.valid firstSession))),
      .form firstSession, .fileBegin 0 "messages.htm".toList, .receive 0 samplePage]

/-- The page can be served. -/
theorem upload_can_be_served_one_tab :
    ∃ f r, receivedSite.forms[0]? = some f ∧
      (f.upload sampleHost).results .insertion f.session = some r ∧
      ∃ (is : List Input) (τ : Site) (os : List Obs),
        (site sampleHost).exec (Undisturbed sampleHost System.anyInput) receivedSite
          (.formEnd 0 :: is.map .core) = some (τ, os) ∧
        (Tabs.after (chartsAt 1 os)).shown 1 = some ⟨.hourHistogram, [.json r.hourHistogram]⟩ := by
  have hreach : (site sampleHost).Reach (Undisturbed sampleHost System.anyInput) receivedSite :=
    System.reach_after _
  have hstate : ∃ f, receivedSite.forms[0]? = some f ∧ f.stage = .receiving ∧
      receivedSite.core.alive = true ∧ f.session ∈ receivedSite.core.sessions ∧
      receivedSite.core.live f.session.text = some 1 ∧
      ((f.upload sampleHost).results .insertion f.session).isSome = true := by
    have hform : receivedSite.forms[0]?.map (fun f => decide (f.stage = .receiving ∧
        receivedSite.core.alive = true ∧ f.session ∈ receivedSite.core.sessions ∧
        receivedSite.core.live f.session.text = some 1 ∧
        ((f.upload sampleHost).results .insertion f.session).isSome = true)) = some true := by
      decide +kernel
    obtain ⟨f, hf, hall⟩ := Option.map_eq_some_iff.mp hform
    exact ⟨f, hf, of_decide_eq_true hall⟩
  obtain ⟨f, hf, hstage, halive, hknown, hlive, hsome⟩ := hstate
  obtain ⟨r, hr⟩ := Option.isSome_iff_exists.mp hsome
  obtain ⟨_, _, is, τ, os, _, _, hrun, _, _, hshown⟩ :=
    upload_can_be_served hreach hf hstage halive hknown hlive hr
  exact ⟨f, r, hf, hr, is, τ, os, hrun, (hshown []).2⟩

end Browser
