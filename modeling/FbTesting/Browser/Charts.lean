import FbTesting.Analyser.Hours
import FbTesting.Browser.BarChart
import FbTesting.Browser.Tabs
import FbTesting.Server.Results

/-!
# What the charts of a session show

An event with a chart has come a long way: the threads of a document were taken
apart, one of the chats was counted, the counts were dumped, read and sent.  Here the
ways are put together.  Over documents as they are exported, a chart that is shown is
always that of one thread of one upload (`page_shows_own_threads`).

The radar chart counts the messages by the hour that the clock showed, raised by
twelve after noon, so that midnight is at axis 12 and noon at axis 24.  The time line
has an entry for each run of messages of one such hour but the last run.
-/

namespace Browser

open Base Python Node Analyser Server

/-! ## The charts of a thread -/

/-- The axis of the radar chart on which a message of this time is counted. -/
def axisOf (ts : Timestamp) : Nat := if ts.pm then ts.hour + 12 else ts.hour

/-- The messages of a thread as they are stored, with the moments of their dates. -/
def datedMessages (t : SourceThread) : List DatedMessage := (posted t).map Posted.dated

theorem axisOf_eq (ts : Timestamp) : axisOf ts = ts.storedHour + 1 := by
  have hpos := ts.time_valid.1.1
  rw [axisOf, Timestamp.storedHour]
  split <;> omega

/-- A message is counted for an hour just if it is on the axis. -/
theorem ofHour_datedMessages (t : SourceThread) (hour : Nat) :
    ofHour hour (datedMessages t) = (posted t).countP fun p => axisOf p.stamp == hour + 1 := by
  rw [ofHour, datedMessages, List.countP_map]
  refine List.countP_congr fun p _ => ?_
  show p.stamp.storedHour == hour ↔ axisOf p.stamp == hour + 1
  rw [axisOf_eq]
  simp

/-- The page finds these properties in a datum. -/
def Reads (v : Json) (members : List (Text × Json)) : Prop :=
  ∀ m ∈ members, property (.json v) m.1 = .ok (.json m.2)

/-- The payload is an array, in whose elements the page finds these properties. -/
def IsData (pl : Payload) (data : List (List (Text × Json))) : Prop :=
  ∃ vs, pl = .json (.arr vs) ∧ List.Forall₂ Reads vs data

/-- What the radar chart reads of a bar. -/
def barMembers (b : Nat × Nat) : List (Text × Json) :=
  [("axis".toList, .num b.1), ("value".toList, .num b.2)]

/-- What the bar chart reads of an entry. -/
def entryMembers (e : Entry) : List (Text × Json) :=
  [("date".toList, .str e.date.str), ("wordcount".toList, .num e.wordcount)]

theorem isData_map {α : Type} {write : α → Json} {members : α → List (Text × Json)}
    (h : ∀ a, Reads (write a) (members a)) (as : List α) :
    IsData (.json (.arr (as.map write))) (as.map members) := by
  refine ⟨_, rfl, ?_⟩
  rw [List.forall₂_map_left_iff, List.forall₂_map_right_iff]
  exact List.forall₂_same.mpr fun a _ => h a

/-- The radar chart finds in the histogram what was counted. -/
theorem isData_hourJson (bars : List (Nat × Nat)) :
    IsData (.json (hourJson bars)) (bars.map barMembers) := by
  refine isData_map (fun b m hm => ?_) bars
  rw [barMembers, List.mem_cons, List.mem_singleton] at hm
  obtain rfl | rfl := hm
  · rfl
  · rfl

/-- The bar chart finds in the time line its entries. -/
theorem isData_timelineJson (entries : List Entry) :
    IsData (.json (timelineJson entries)) (entries.map entryMembers) := by
  refine isData_map (fun e m hm => ?_) entries
  rw [entryMembers, List.mem_cons, List.mem_singleton] at hm
  obtain rfl | rfl := hm
  · rfl
  · rfl

/-- The payload is the radar chart of the thread: its axes are the numbers from 24
down, each with the number of messages on it, which together are all messages. -/
def ShowsHours (t : SourceThread) (pl : Payload) : Prop :=
  ∃ bars : List (Nat × Nat), IsData pl (bars.map barMembers) ∧
    bars.map Prod.fst = (List.range' 1 24).reverse ∧
    (∀ b ∈ bars, b.2 = (posted t).countP fun p => axisOf p.stamp == b.1) ∧
    (bars.map Prod.snd).sum = (posted t).length

/-- The payload is the time line of the thread: an entry for each maximal run of
messages of one stored hour but the last.  All of them are drawn, if the messages are
in chronological order. -/
def ShowsRuns (t : SourceThread) (pl : Payload) : Prop :=
  ∃ runs, ∃ entries : List Entry, MaximalRuns (datedMessages t) runs ∧
    runs.dropLast.map groupEntry = entries.map some ∧ IsData pl (entries.map entryMembers) ∧
    (Chronological t → bar_init entries = entries)

/-- The payload is this chart of the thread. -/
def ShowsChart (t : SourceThread) (pl : Payload) : Chart → Prop
  | .hourHistogram => ShowsHours t pl
  | .timeline => ShowsRuns t pl

theorem showsHours_hourCounts (t : SourceThread) :
    ShowsHours t (.json (hourJson (hourCounts (datedMessages t)))) := by
  refine ⟨_, isData_hourJson _, ?_, fun b hb => ?_, ?_⟩
  · rw [hourCounts, List.map_map]
    rfl
  · obtain ⟨hour, _, rfl⟩ := List.mem_map.mp hb
    exact ofHour_datedMessages t hour
  · have hlength : (datedMessages t).length = (posted t).length := List.length_map _
    rw [hourCounts, List.map_map, ← hlength, ← sum_ofHour, List.map_reverse, List.sum_reverse]
    rfl

/-- The entries of the time line of a thread. -/
def runEntries (t : SourceThread) : List Entry :=
  (countedGroups (datedMessages t)).filterMap groupEntry

theorem showsRuns_runEntries (t : SourceThread) :
    ShowsRuns t (.json (timelineJson (runEntries t))) := by
  refine ⟨_, _, maximalRuns_groups _, ?_, isData_timelineJson _, fun h => ?_⟩
  · exact map_groupEntry fun g hg => List.mem_of_mem_dropLast hg
  · exact enter_eq_self (nodup_entry_dates (momentsTogether_posted h))

/-! ## The thread of a result -/

/-- The chat whose charts are made is a thread of the document. -/
theorem firstChat_rawDocument {H : HashOrder} {user : Text} {doc : List SourceThread} {fb : Fb}
    {ms : List Message} (hfb : (extract H user (rawDocument doc)).result = .ok fb)
    (hms : firstChat H fb = .ok ms) :
    ∃ t ∈ doc, ms = (datedMessages t).map DatedMessage.message := by
  rw [extract_result H user (forall₂_kept doc), Except.ok.injEq] at hfb
  subst hfb
  rw [firstChat] at hms
  split at hms
  next => cases hms
  next key keys hkeys =>
    cases hms
    have hmem : key ∈
        (Dict.empty.assignAll ((doc.map SourceThread.kept).map (Kept.entry H))).keys := by
      rw [← (H.dict_perm _).mem_iff, hkeys]
      exact List.mem_cons_self
    obtain ⟨chat, hchat⟩ := Dict.mem_keys_iff.mp hmem
    obtain ⟨k, hk, hentry⟩ := List.mem_map.mp (Dict.mem_of_get?_assignAll _ hchat)
    obtain ⟨t, ht, rfl⟩ := List.mem_map.mp hk
    cases hentry
    refine ⟨t, ht, ?_⟩
    show Dict.listAt _ _ = _
    rw [Dict.listAt, hchat, Option.getD_some]
    exact records_eq t

/-- The bars are the counts of the messages. -/
theorem hourArr_of_hourLoop {ms : List DatedMessage} {size : Nat} {counts : Dict Nat Nat}
    (h : (hourLoop size (ms.map DatedMessage.message) 1 .empty).result = .ok counts) :
    hourArr counts = hourCounts ms := by
  obtain ⟨d, hd, hcount⟩ := hourLoop_result size ms 1 (.empty : Dict Nat Nat)
  rw [h, Except.ok.injEq] at hd
  subst hd
  rw [hourArr, hourCounts]
  refine List.map_congr_left fun hour _ => ?_
  rw [hcount hour, Dict.get?_empty, Option.getD_none, Nat.zero_add]

/-- The charts of an export are those of one of its threads. -/
theorem shows_of_results {H : HashOrder} {user filepath : Text} {doc : List SourceThread}
    {r : Results} (h : results H user filepath (.ok (rawDocument doc)) = some r) :
    ∃ t ∈ doc, ∀ c : Chart, ShowsChart t (.json (r.json c.file)) c := by
  obtain ⟨d, fb, ms, es, counts, hdoc, _, hfb, hms, hes, hcounts, rfl⟩ := results_eq_some h
  cases hdoc
  obtain ⟨t, ht, rfl⟩ := firstChat_rawDocument hfb hms
  refine ⟨t, ht, fun c => ?_⟩
  cases c with
  | hourHistogram =>
      show ShowsHours t (.json (hourJson (hourArr counts)))
      rw [hourArr_of_hourLoop hcounts]
      exact showsHours_hourCounts t
  | timeline =>
      rw [timelineEntries_result, Except.ok.injEq] at hes
      show ShowsRuns t (.json (timelineJson es))
      rw [← hes]
      exact showsRuns_runEntries t

/-! ## The charts of a session -/

/-- The documents that were uploaded in the session are exports. -/
def Exports (σ : State) (s : SessionID) : Prop :=
  ∀ p ∈ σ.procs, p.session = s → ∃ doc, p.upload.doc = .ok (rawDocument doc)

/-- The payload is a chart of a thread of a document that the session uploaded. -/
def Explained (σ : State) (s : SessionID) (c : Chart) (pl : Payload) : Prop :=
  ∃ p ∈ σ.procs, p.session = s ∧ ∃ doc, p.upload.doc = .ok (rawDocument doc) ∧
    ∃ t ∈ doc, ShowsChart t pl c

variable {H : HashOrder} {σ : State} {s : SessionID}

/-- A chart that is sent to a session is explained, and goes to a socket of the
session. -/
theorem explained_of_sent (h : (machine H).Reach (Separate true) σ) (hexports : Exports σ s)
    {i : Input} {r : State × List Obs} (hstep : step H σ i = some r) {c : Chart} {pl : Payload} {id : SocketId}
    (hsent : .sent s.text c.event pl id ∈ r.2) : Explained σ s c pl := by
  obtain ⟨res, ⟨p, hp, hs, hres⟩, hpl⟩ := sent_chart_complete h hstep hsent
  obtain ⟨doc, hdoc⟩ := hexports p hp hs
  rw [Upload.results, hdoc] at hres
  obtain ⟨t, ht, hshows⟩ := shows_of_results hres
  exact ⟨p, hp, hs, doc, hdoc, t, ht, hpl ▸ hshows c⟩

/-- No upload is forgotten, so that exports were exports before. -/
theorem exports_of_move {i : Input} {r : State × List Obs} (h : Move H σ i r)
    (hexports : Exports r.1 s) : Exports σ s := by
  intro p hp hs
  obtain ⟨q, hq, hqs, hqu⟩ := proc_of_move h (P := fun t u => t = s ∧ u = p.upload) ⟨p, hp, hs, rfl⟩
  obtain ⟨doc, hdoc⟩ := hexports q hq hqs
  exact ⟨doc, hqu ▸ hdoc⟩

theorem explained_of_move {i : Input} {r : State × List Obs} (h : Move H σ i r) {c : Chart}
    {pl : Payload} (hexplained : Explained σ s c pl) : Explained r.1 s c pl := by
  obtain ⟨p, hp, hs, doc, hdoc, hshows⟩ := hexplained
  obtain ⟨q, hq, hqs, hqu⟩ := proc_of_move h (P := fun t u => t = s ∧ u = p.upload) ⟨p, hp, hs, rfl⟩
  exact ⟨q, hq, hqs, doc, hqu ▸ hdoc, hshows⟩

/-- No handshake is forgotten. -/
theorem issued_of_move {i : Input} {r : State × List Obs} (h : Move H σ i r)
    {x : SocketId × SignedSid} (hx : x ∈ σ.issued) : x ∈ r.1.issued := by
  obtain ⟨_, hsame⟩ | ⟨id, c, _, hnew⟩ := sockets_of_move h
  · rw [hsame]
    exact hx
  · rw [hnew]
    exact List.mem_cons_of_mem _ hx

/-- The chart of an event, if it is for the socket. -/
def chartAt (id : SocketId) : Obs → Option (Chart × Payload)
  | .sent _ .bar pl x => if x = id then some (.timeline, pl) else none
  | .sent _ .radar pl x => if x = id then some (.hourHistogram, pl) else none
  | _ => none

theorem chartAt_eq_some {id : SocketId} {o : Obs} {e : Chart × Payload}
    (h : chartAt id o = some e) : ∃ key, o = .sent key e.1.event e.2 id := by
  cases o with
  | threw _ => cases h
  | sent key event pl x =>
      cases event with
      | progress => cases h
      | bar =>
          obtain ⟨rfl, he⟩ := Option.ite_none_right_eq_some.mp h
          cases he
          exact ⟨key, rfl⟩
      | radar =>
          obtain ⟨rfl, he⟩ := Option.ite_none_right_eq_some.mp h
          cases he
          exact ⟨key, rfl⟩

/-- The events with charts that a socket has got, in order. -/
def chartsAt (id : SocketId) (os : List Obs) : List (Chart × Payload) := os.filterMap (chartAt id)

/-- What an event with a chart is at any later time: it went to a socket of a session,
and it is explained if the uploads of that session are exports. -/
def ChartFromSession (τ : State) (o : Obs) : Prop :=
  ∀ key c pl id, o = .sent key (Chart.event c) pl id →
    ∃ t : SessionID, (id, .valid t) ∈ τ.issued ∧ (Exports τ t → Explained τ t c pl)

/-- The charts of a run are explained at its end. -/
theorem charts_explained {is : List Input} {r : State × List Obs}
    (h : (machine H).exec (Separate true) State.initial is = some r) :
    ∀ o ∈ r.2, ChartFromSession r.1 o := by
  refine System.exec_explained ChartFromSession ?_ ?_ .init h
  · intro σ i r hreach _ hstep o ho key c pl id heq
    subst heq
    have hmove := move_of_step hstep
    obtain ⟨⟨p, _, rfl⟩, hlive⟩ := sent_of_move hmove (chartReadsOwned_of_reach hreach) ho
    have hlast := ((live_eq_some_iff (socketsCurrent_of_reach hreach)).mp hlive).1
    refine ⟨p.session, issued_of_move hmove (mem_issued_of_lastSocket hlast), fun hexports => ?_⟩
    exact explained_of_move hmove
      (explained_of_sent hreach (exports_of_move hmove hexports) hstep ho)
  · intro σ i r o hstep hold key c pl id heq
    have hmove := move_of_step hstep
    obtain ⟨t, hissued, hexplained⟩ := hold key c pl id heq
    exact ⟨t, issued_of_move hmove hissued, fun hexports =>
      explained_of_move hmove (hexplained (exports_of_move hmove hexports))⟩

/-- What is explained is explained by what a form of the session has received. -/
theorem explained_of_inPlace {E : Host} {σ : Site} (h : InPlace E σ) {c : Chart}
    {pl : Payload} (hexplained : Explained σ.core s c pl) :
    ∃ f ∈ σ.forms, f.session = s ∧ ∃ doc, (f.upload E).doc = .ok (rawDocument doc) ∧
      ∃ t ∈ doc, ShowsChart t pl c := by
  obtain ⟨p, hp, rfl, doc, hdoc, hshows⟩ := hexplained
  obtain ⟨f, hf, _, hs, hu⟩ := h.procs p hp
  exact ⟨f, hf, hs, doc, hu ▸ hdoc, hshows⟩

/-- In every run of a site in which uploads do not overlap and are not disturbed, a page of
a session whose files are exports has a tab for each event with a chart that it has got.
The tab shows all time lines that the page has got or the last of the hour histograms,
and each of them is that of one thread of one file that the session has sent. -/
theorem page_shows_own_threads {E : Host} {is : List SiteInput} {r : Site × List Obs}
    (h : (site E).exec (Undisturbed E (Separate true)) Site.initial is = some r) {id : SocketId}
    (hid : (id, .valid s) ∈ r.1.core.issued)
    (hexports : ∀ f ∈ r.1.forms, f.stage ≠ .receiving → f.session = s →
      ∃ doc, (f.upload E).doc = .ok (rawDocument doc)) :
    (Tabs.after (chartsAt id r.2)).links.length = (chartsAt id r.2).length ∧
      ∀ (i : Nat) (e : Chart × Payload), (chartsAt id r.2)[i]? = some e →
        ∃ drawn, (Tabs.after (chartsAt id r.2)).shown i = some ⟨e.1, drawn⟩ ∧ drawn ≠ [] ∧
          drawn = visible e.1 (datasetsOf e.1 (chartsAt id r.2)) ∧
          ∀ pl ∈ drawn, ∃ f ∈ r.1.forms, f.session = s ∧
            ∃ doc, (f.upload E).doc = .ok (rawDocument doc) ∧
              ∃ t ∈ doc, ShowsChart t pl e.1 := by
  obtain ⟨hcore, hplace⟩ := core_of_exec h
  have hall : Exports r.1.core s := by
    intro p hp hs
    obtain ⟨f, hf, hended, hfs, hfu⟩ := hplace.procs p hp
    rw [← hfu]
    exact hexports f hf hended (hfs.trans hs)
  obtain ⟨hlength, _, hshown, _⟩ := tabs_after_events (chartsAt id r.2)
  refine ⟨hlength, fun i e he => ⟨_, hshown i e he, ?_, rfl, fun pl hpl => ?_⟩⟩
  · exact visible_ne_nil (List.mem_of_getElem? he)
  · have hmem : (e.1, pl) ∈ chartsAt id r.2 := mem_of_visible hpl
    obtain ⟨o, ho, hchart⟩ := List.mem_filterMap.mp hmem
    obtain ⟨key, rfl⟩ := chartAt_eq_some hchart
    obtain ⟨t, ht, hexplained⟩ := charts_explained hcore _ ho key e.1 pl id rfl
    have hdistinct := idsDistinct_of_reach (System.reach_of_exec .init hcore)
    have hpair := List.inj_on_of_nodup_map hdistinct ht hid rfl
    cases hpair
    exact explained_of_inPlace hplace (hexplained hall)

/-- A form with a tab.  The name of the last chart arrives by itself. -/
def oneChartInputs : List SiteInput :=
  [.core (.newSession .least), .core (.handshake 1 (some (.valid firstSession)))] ++
    pageForm 0 firstSession samplePage ++
    List.map .core
      (List.replicate 25 (.py 0 1000) ++ [.stdout 0 159, .stdout 0 13, .land 0, .callback 0])

/-- The tab of the page shows the hour histogram. -/
theorem page_shows_own_threads_one_chart :
    ∃ r drawn, (site sampleHost).exec (Undisturbed sampleHost (Separate true)) Site.initial
        oneChartInputs = some r ∧
      (Tabs.after (chartsAt 1 r.2)).shown 0 = some ⟨.hourHistogram, drawn⟩ ∧ drawn ≠ [] ∧
      ∀ pl ∈ drawn, ∃ f ∈ r.1.forms, f.session = firstSession ∧
        ∃ doc, (f.upload sampleHost).doc = .ok (rawDocument doc) ∧
          ∃ t ∈ doc, ShowsChart t pl .hourHistogram := by
  have hrun : ((site sampleHost).exec (Undisturbed sampleHost (Separate true)) Site.initial
      oneChartInputs).map (fun r => (decide ((1, .valid firstSession) ∈ r.1.core.issued ∧
        ∀ f ∈ r.1.forms, f.filename.isSome = true ∧ f.body = samplePage),
        (chartsAt 1 r.2).map Prod.fst)) = some (true, [.hourHistogram]) := by decide +kernel
  obtain ⟨r, hr, hpair⟩ := Option.map_eq_some_iff.mp hrun
  rw [Prod.mk.injEq, decide_eq_true_eq] at hpair
  obtain ⟨⟨hid, hforms⟩, hcharts⟩ := hpair
  have hexports : ∀ f ∈ r.1.forms, f.stage ≠ .receiving → f.session = firstSession →
      ∃ doc, (f.upload sampleHost).doc = .ok (rawDocument doc) := by
    intro f hf _ _
    obtain ⟨hname, hbody⟩ := hforms f hf
    obtain ⟨name, hname⟩ := Option.isSome_iff_exists.mp hname
    have hdoc : (f.upload sampleHost).doc = sampleHost.pyquery (some samplePage) := by
      rw [Form.upload, hname, hbody, Option.map_some]
    rw [hdoc, pyquery_samplePage]
    exact ⟨_, rfl⟩
  obtain ⟨e, he, hchart⟩ := List.map_eq_singleton_iff.mp hcharts
  have hfirst : (chartsAt 1 r.2)[0]? = some e := by rw [he]; rfl
  obtain ⟨drawn, hshown, hne, _, hall⟩ := (page_shows_own_threads hr hid hexports).2 0 e hfirst
  rw [hchart] at hshown hall
  exact ⟨r, drawn, hr, hshown, hne, hall⟩

end Browser
