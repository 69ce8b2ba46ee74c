import Mathlib.Data.List.TakeWhile
import FbTesting.Analyser.Stream
import FbTesting.Server.RunPython

/-!
# The pipe between the analyser and the server

A pipe has no boundaries: the text a run writes arrives in chunks that the
system cuts as it likes.  `readsStarted` counts the reads of a chart's file that
the handler starts over a list of chunks, each with the socket the session has
when it arrives.  An exception in the handler ends the server, so that nothing
after it counts.

A read is started by a chunk whose text before the first carriage return is the
name of the chart.  In the output of a run that ends normally no carriage return
follows a letter, so that such a chunk is the name and nothing else
(`beforeReturn_eq_key_iff`).  The name of the hour histogram has the only
underscore of the output, so that a chunk that is this name is the last one.
-/

namespace Server

open Base Node Analyser

/-! ## Reads over a list of chunks -/

/-- A chunk with the connected socket that the session has when it arrives. -/
abbrev Arrival := Option SocketId × Text

/-- The start of the read of a chart. -/
def Effect.isReadChart (c : Chart) : Effect → Bool
  | .readChart d => d == c
  | _ => false

/-- The reads of a chart's file that the handler starts over the chunks. -/
def readsStarted (c : Chart) : List Arrival → Nat
  | [] => 0
  | (live, data) :: rest =>
      let run := onStdoutData live data
      run.acts.countP (Effect.isReadChart c) +
        match run.result with
        | .ok _ => readsStarted c rest
        | .error _ => 0

/-- The handler returns from a chunk: a progress number needs a socket. -/
def Handled (a : Arrival) : Prop := progressMatch a.2 ≠ none → a.1 ≠ none

instance (a : Arrival) : Decidable (Handled a) := inferInstanceAs (Decidable (_ → _))

/-- The chunk starts a read of the chart. -/
def Starts (c : Chart) (data : Text) : Prop := data.head? ≠ some '-' ∧ beforeReturn data = c.key

instance (c : Chart) (data : Text) : Decidable (Starts c data) := inferInstanceAs (Decidable (_ ∧ _))

/-- What the lookup of a chunk starts. -/
theorem countP_lookUpChart (c : Chart) (data : Text) :
    (lookUpChart data).acts.countP (Effect.isReadChart c) = if Starts c data then 1 else 0 := by
  unfold lookUpChart
  by_cases hdash : data.head? = some '-'
  · rw [if_pos hdash, if_neg fun h => h.1 hdash]
    rfl
  · rw [if_neg hdash]
    cases hc : chartOf (beforeReturn data) with
    | none =>
        rw [if_neg]
        · rfl
        · intro h
          rw [chartOf_eq_some_iff.mpr h.2] at hc
          cases hc
    | some d =>
        have hd := chartOf_eq_some_iff.mp hc
        by_cases hcd : d = c
        · subst hcd
          rw [if_pos ⟨hdash, hd⟩]
          simp [Traced.perform, Effect.isReadChart]
        · rw [if_neg fun h => hcd (Chart.key_injective (hd.symm.trans h.2))]
          simp [Traced.perform, Effect.isReadChart, hcd]

theorem lookUpChart_result (data : Text) : (lookUpChart data).result = .ok () := by
  unfold lookUpChart
  split
  · rfl
  · split <;> rfl

/-- Without a socket a progress number throws, before anything is read. -/
theorem onStdoutData_throws {a : Arrival} (h : ¬Handled a) :
    onStdoutData a.1 a.2 = ⟨[], .error .typeError⟩ := by
  obtain ⟨hp, hl⟩ := Classical.not_imp.mp h
  obtain ⟨p, hp⟩ := Option.ne_none_iff_exists'.mp hp
  rw [onStdoutData, sendProgress, hp, not_not.mp hl]
  rfl

/-- The other chunks start what their lookup starts. -/
theorem onStdoutData_returns {a : Arrival} (h : Handled a) :
    (onStdoutData a.1 a.2).result = .ok () ∧
      ∀ c, (onStdoutData a.1 a.2).acts.countP (Effect.isReadChart c) =
        if Starts c a.2 then 1 else 0 := by
  have hsend : (sendProgress a.1 a.2).result = .ok () ∧
      ∀ c, (sendProgress a.1 a.2).acts.countP (Effect.isReadChart c) = 0 := by
    cases hp : progressMatch a.2 with
    | none =>
        rw [sendProgress, hp]
        exact ⟨rfl, fun c => rfl⟩
    | some p =>
        obtain ⟨id, hid⟩ := Option.ne_none_iff_exists'.mp (h (by rw [hp]; exact nofun))
        rw [sendProgress, hp, hid]
        exact ⟨rfl, fun c => rfl⟩
  rw [onStdoutData, Traced.bind_ok hsend.1]
  refine ⟨lookUpChart_result a.2, fun c => ?_⟩
  rw [List.countP_append, hsend.2, countP_lookUpChart, Nat.zero_add]

/-- The reads are started by the chunks before the first one that throws. -/
theorem readsStarted_eq (c : Chart) (as : List Arrival) :
    readsStarted c as = (as.takeWhile fun a => Handled a).countP fun a => Starts c a.2 := by
  induction as with
  | nil => rfl
  | cons a as ih =>
      by_cases h : Handled a
      · have hret := onStdoutData_returns h
        rw [readsStarted, List.takeWhile_cons_of_pos (by simpa using h), List.countP_cons, ← ih,
          hret.1, hret.2, Nat.add_comm]
        simp
      · rw [readsStarted, onStdoutData_throws h, List.takeWhile_cons_of_neg (by simpa using h)]
        rfl

/-! ## Chunks of a normal run -/

/-- The last letter of a name is no digit and no blank. -/
theorem Chart.not_carriageStep_key (c : Chart) :
    ∃ k x, c.key = k ++ [x] ∧ ¬CarriageStep x '\r' := by
  cases c with
  | hourHistogram => exact ⟨"hour_histogra".toList, 'm', by decide, by decide⟩
  | timeline => exact ⟨"timelin".toList, 'e', by decide, by decide⟩

/-- In a text whose carriage returns are in order, the part before the first
one is the name of a chart only if it is all of the text. -/
theorem beforeReturn_eq_key_iff (c : Chart) {data : Text} (h : data.IsChain CarriageStep) :
    beforeReturn data = c.key ↔ data = c.key := by
  obtain ⟨k, x, hk, hx⟩ := c.not_carriageStep_key
  constructor
  · intro hkey
    have hsplit : beforeReturn data ++ data.dropWhile (· ≠ '\r') = data :=
      List.takeWhile_append_dropWhile
    rw [hkey] at hsplit
    cases hrest : data.dropWhile (· ≠ '\r') with
    | nil => rw [← hsplit, hrest, List.append_nil]
    | cons y ys =>
        have hy : y = '\r' := by
          have hhead := List.head?_dropWhile_not (· ≠ '\r') data
          rw [hrest] at hhead
          simpa using hhead
        -- the last letter of the name would stand before a carriage return
        rw [hrest, hk, hy] at hsplit
        rw [← hsplit, List.append_assoc, List.singleton_append, List.isChain_append_cons_cons] at h
        exact absurd h.2.1 hx
  · intro hdata
    subst hdata
    cases c <;> decide

/-- A chunk of a normal run starts the read of a chart if and only if it is the
chart's name. -/
theorem starts_iff (c : Chart) {data : Text} (h : data.IsChain CarriageStep) :
    Starts c data ↔ data = c.key := by
  rw [Starts, beforeReturn_eq_key_iff c h]
  constructor
  · intro hs
    exact hs.2
  · intro hdata
    refine ⟨?_, hdata⟩
    subst hdata
    cases c <;> decide

/-- The chunks of a text whose carriage returns are in order have them in order. -/
theorem isChain_chunk {as : List Arrival} {t : Text} (h : t.IsChain CarriageStep)
    (hcut : (as.map Prod.snd).flatten = t) {a : Arrival} (ha : a ∈ as) :
    a.2.IsChain CarriageStep := by
  refine h.infix ?_
  rw [← hcut]
  exact List.infix_of_mem_flatten (List.mem_map_of_mem ha)

/-- Over such a text the reads are started by the chunks that are the name. -/
theorem readsStarted_eq_count (c : Chart) {as : List Arrival} {t : Text}
    (h : t.IsChain CarriageStep) (hcut : (as.map Prod.snd).flatten = t) :
    readsStarted c as = ((as.takeWhile fun a => Handled a).map Prod.snd).count c.key := by
  rw [readsStarted_eq, List.count, List.countP_map]
  refine List.countP_congr fun a ha => ?_
  have hmem := (List.takeWhile_sublist _).mem ha
  simp [starts_iff c (isChain_chunk h hcut hmem)]

/-! ## The last word -/

/-- A chunk that is the last word of a normal run is the last chunk. -/
theorem nil_after_hour_histogram {n l : Nat} {pre post : List Text}
    (hcut : (pre ++ Chart.hourHistogram.key :: post).flatten = normalStream n l)
    (hne : ∀ t ∈ post, t ≠ []) : post = [] ∧ pre.flatten = normalBody n l := by
  -- both sides are cut at their only underscore
  have hbody : ('_' : Char) ∉ normalBody n l ++ "hour".toList :=
    List.not_mem_append (underscore_normalBody n l) (by decide)
  have hsplit : (pre.flatten ++ "hour".toList) ++ '_' :: ("histogram".toList ++ post.flatten) =
      (normalBody n l ++ "hour".toList) ++ '_' :: "histogram".toList := by
    have hkey : Chart.hourHistogram.key = "hour".toList ++ '_' :: "histogram".toList := by decide
    have hword : "hour_histogram".toList = "hour".toList ++ '_' :: "histogram".toList := by decide
    rw [List.flatten_append, List.flatten_cons, hkey, normalStream, hword] at hcut
    simpa [List.append_assoc] using hcut
  have hparts := (List.append_cons_inj_of_notMem hbody (by decide)).mp hsplit.symm
  have hpost : post.flatten = [] := List.append_right_eq_self.mp hparts.2.2.symm
  refine ⟨List.eq_nil_iff_forall_not_mem.mpr fun t ht => ?_, ?_⟩
  · exact hne t ht (List.flatten_eq_nil_iff.mp hpost t ht)
  · exact (List.append_cancel_right hparts.1).symm

/-- If every chunk is handled, none is cut off. -/
theorem takeWhile_handled {as : List Arrival} (h : ∀ a ∈ as, Handled a) :
    (as.takeWhile fun a => Handled a) = as :=
  List.takeWhile_eq_self_iff.mpr fun a ha => decide_eq_true (h a ha)

/-- The last word is a chunk, and handled, exactly when it is the last chunk and
every chunk is handled. -/
theorem mem_handled_iff {n l : Nat} {as : List Arrival} (hne : ∀ a ∈ as, a.2 ≠ [])
    (hcut : (as.map Prod.snd).flatten = normalStream n l) :
    Chart.hourHistogram.key ∈ (as.takeWhile fun a => Handled a).map Prod.snd ↔
      (∀ a ∈ as, Handled a) ∧ (as.map Prod.snd).getLast? = some Chart.hourHistogram.key := by
  constructor
  · intro hmem
    obtain ⟨a, ha, hkey⟩ := List.mem_map.mp hmem
    obtain ⟨p, q, hpq⟩ := List.append_of_mem ha
    have has := List.takeWhile_append_dropWhile (p := fun a : Arrival => decide (Handled a)) (l := as)
    rw [hpq, List.append_assoc, List.cons_append] at has
    generalize as.dropWhile (fun a => decide (Handled a)) = r at has
    have hsnd : as.map Prod.snd =
        p.map Prod.snd ++ Chart.hourHistogram.key :: (q ++ r).map Prod.snd := by
      rw [← has, List.map_append, List.map_cons, hkey]
    have hrest : (q ++ r).map Prod.snd = [] := by
      rw [hsnd] at hcut
      refine (nil_after_hour_histogram hcut fun t ht => ?_).1
      obtain ⟨b, hb, rfl⟩ := List.mem_map.mp ht
      refine hne b ?_
      rw [← has]
      exact List.mem_append_right p (List.mem_cons_of_mem a hb)
    have hqr := List.map_eq_nil_iff.mp hrest
    rw [hqr] at has
    rw [(List.append_eq_nil_iff.mp hqr).1] at hpq
    refine ⟨fun b hb => ?_, ?_⟩
    · have hb' : b ∈ as.takeWhile fun a => decide (Handled a) := by rwa [hpq, has]
      simpa using List.mem_takeWhile_imp hb'
    · rw [hsnd, hrest]
      simp
  · intro h
    rw [takeWhile_handled h.1]
    exact List.mem_of_getLast? h.2

/-- Over a normal run the last word is a chunk at most once. -/
theorem count_hour_histogram_le {n l : Nat} {ts : List Text} (hne : ∀ t ∈ ts, t ≠ [])
    (hcut : ts.flatten = normalStream n l) : ts.count Chart.hourHistogram.key ≤ 1 := by
  by_cases hmem : Chart.hourHistogram.key ∈ ts
  · obtain ⟨pre, post, rfl⟩ := List.append_of_mem hmem
    have hparts := nil_after_hour_histogram hcut fun t ht =>
      hne t (List.mem_append_right pre (List.mem_cons_of_mem _ ht))
    have hpre : Chart.hourHistogram.key ∉ pre := by
      intro h
      refine underscore_normalBody n l ?_
      rw [← hparts.2]
      exact List.mem_flatten_of_mem h (by decide)
    rw [hparts.1, List.count_append, List.count_eq_zero_of_not_mem hpre]
    simp
  · rw [List.count_eq_zero_of_not_mem hmem]
    exact Nat.zero_le 1

/-! ## Exactly one read of each chart -/

/-- Over the output of a run that ends normally, cut in any way, the handler
starts one read for each chart exactly when every progress number arrives while
the session has a connected socket, one chunk is the word of the time line by
itself, and the last chunk is the word of the hour histogram by itself. -/
theorem reads_each_chart_once_iff (H : HashOrder) (user filepath : Text)
    (doc : Except Python.PyError Document) (hrun : (main H user filepath doc).result = .ok 0)
    (as : List Arrival) (hne : ∀ a ∈ as, a.2 ≠ [])
    (hcut : (as.map Prod.snd).flatten = stdoutText (analyse H user filepath doc).acts) :
    (readsStarted .timeline as = 1 ∧ readsStarted .hourHistogram as = 1) ↔
      (∀ a ∈ as, progressMatch a.2 ≠ none → a.1 ≠ none) ∧
        (as.map Prod.snd).count "timeline".toList = 1 ∧
        (as.map Prod.snd).getLast? = some "hour_histogram".toList := by
  obtain ⟨n, l, _, hout⟩ := stdoutText_normal hrun
  rw [hout] at hcut
  have hchain := (carriageOk_normalStream n l).2
  rw [readsStarted_eq_count _ hchain hcut, readsStarted_eq_count _ hchain hcut]
  constructor
  · intro h
    have hmem := List.count_pos_iff.mp (Nat.lt_of_lt_of_eq Nat.zero_lt_one h.2.symm)
    obtain ⟨hall, hlast⟩ := (mem_handled_iff hne hcut).mp hmem
    refine ⟨hall, ?_, hlast⟩
    rw [takeWhile_handled hall] at h
    exact h.1
  · intro h
    obtain ⟨hall, htime, hlast⟩ := h
    have hmem := (mem_handled_iff hne hcut).mpr ⟨hall, hlast⟩
    rw [takeWhile_handled hall] at hmem ⊢
    refine ⟨htime, Nat.le_antisymm ?_ (List.count_pos_iff.mpr hmem)⟩
    refine count_hour_histogram_le (fun t ht => ?_) hcut
    obtain ⟨a, ha, rfl⟩ := List.mem_map.mp ht
    exact hne a ha

/-- A document with one message. -/
def sampleDocument : Except Python.PyError Document :=
  .ok (rawDocument [[sampleMessage "Friend1" "This is the first message"]])

/-- The output of its analysis, cut where it was flushed. -/
def flushedChunks : List Text :=
  ["yes\n100\r".toList, "finished creating JSON chat structure\n".toList,
    "Starting analysis for time line plot...".toList, "All messages have been analyzed.".toList,
    "timeline".toList, "-hour histograms progress: 200%   \r".toList, "hour_histogram".toList]

/-- The name the sample was uploaded under. -/
def samplePath : Text := "./users/0a1b/uploads/messages.htm".toList

/-- Cut where it was flushed, the output of the sample gives both charts. -/
theorem reads_each_chart_once_flushed :
    readsStarted .timeline (flushedChunks.map (none, ·)) = 1 ∧
      readsStarted .hourHistogram (flushedChunks.map (none, ·)) = 1 :=
  (reads_each_chart_once_iff .insertion "0a1b".toList samplePath sampleDocument (by decide)
    (flushedChunks.map (none, ·)) (by decide) (by decide +kernel)).mpr (by decide)

/-- The output of the sample as one chunk. -/
def coalescedChunks : List Text :=
  [stdoutText (analyse .insertion "0a1b".toList samplePath sampleDocument).acts]

/-- When the output arrives as one chunk no chart is read, though the run ended
normally and the session has a connected socket. -/
theorem coalesced_output_reads_nothing :
    (main .insertion "0a1b".toList samplePath sampleDocument).result = .ok 0 ∧
      (∀ t ∈ coalescedChunks, t ≠ []) ∧
      ¬(readsStarted .timeline (coalescedChunks.map (some 1, ·)) = 1 ∧
        readsStarted .hourHistogram (coalescedChunks.map (some 1, ·)) = 1) := by
  decide +kernel

end Server
