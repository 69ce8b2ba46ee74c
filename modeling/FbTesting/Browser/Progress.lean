import FbTesting.Analyser.Outcome
import FbTesting.Server.Pipe

/-!
# The progress bar

After each thread the analyser writes a percentage and flushes.  The server
passes on a chunk that is one or two digits, white space apart, and the page shows
the bar at the first number it gets and hides it at a number from 99 on.

When every flush arrives as a chunk of its own, the first number comes together
with the line `yes` that was in the buffer and is not passed on, and the last one
is 100, which has three digits.  So of `n` threads the numbers of the threads from
2 to `n - 1` reach the page, and the largest of them is 99 only from a hundred
threads on (`largest_percentage`).
-/

namespace Browser

open Base Node Analyser Server

/-! ## Chunks -/

/-- The chunks of a run whose flushes arrive one by one; `pending` is in the
buffer, and a flush of an empty buffer writes nothing. -/
def flushed : Text → List Act → List Text
  | _, [] => []
  | pending, .stdout t :: as => flushed (pending ++ t) as
  | pending, .flush :: as => if pending = [] then flushed [] as else pending :: flushed [] as
  | pending, _ :: as => flushed pending as

/-- The chunks of the extraction, after the line `yes`. -/
def extractionChunks (H : HashOrder) (user : Text) (doc : Document) : List Text :=
  flushed [] (.stdout "yes\n".toList :: (extract H user doc).acts)

/-- The text of a progress event. -/
def progressText : Effect → Option Text
  | .emit .progress (.text t) _ => some t
  | _ => none

/-- The progress events that the server sends over some chunks, to the socket the
session has throughout. -/
def progressEvents (socket : SocketId) (chunks : List Text) : List Text :=
  chunks.flatMap fun data => (onStdoutData (some socket) data).acts.filterMap progressText

/-! ## The page -/

/-- The number that a sequence of digits begins with. -/
def leadingNumber (t : Text) : Option Nat :=
  if t.take 2 = "0x".toList ∨ t.take 2 = "0X".toList then
    let ds := (t.drop 2).takeWhile fun c => (hexDigitValue c).isSome
    if ds = [] then none else hexValue ds
  else
    let ds := t.takeWhile Char.isDigit
    if ds = [] then none else some (decimalValue ds)

/-- `parseInt`, where `none` is not a number. -/
def parseInt (t : Text) : Option Int :=
  let s := t.dropWhile isWhiteSpace
  if s.head? = some '-' then (leadingNumber s.tail).map fun n => -Int.ofNat n
  else if s.head? = some '+' then (leadingNumber s.tail).map Int.ofNat
  else (leadingNumber s).map Int.ofNat

/-- The bar, and the variable of its handler. -/
structure ProgressBar where
  init : Bool
  visible : Bool
  value : Option Int
deriving DecidableEq

/-- The bar of a page that was just loaded. -/
def ProgressBar.fresh : ProgressBar := ⟨true, false, none⟩

/-- `parseInt(data) >= 99`. -/
def reachesEnd (data : Text) : Bool := (parseInt data).any fun n => 99 ≤ n

/-- `socket.on('progress')`. -/
def onProgress (bar : ProgressBar) (data : Text) : ProgressBar :=
  let bar := if bar.init then { bar with visible := true, init := false } else bar
  let bar := { bar with value := parseInt data }
  if reachesEnd data then { bar with visible := false } else bar

/-- The bar after some events. -/
def barAfter (events : List Text) : ProgressBar := events.foldl onProgress .fresh

/-- An event after the first one can only hide the bar. -/
theorem visible_foldl (events : List Text) : ∀ {bar : ProgressBar}, bar.init = false →
    (events.foldl onProgress bar).visible = (bar.visible && events.all fun e => !reachesEnd e) := by
  induction events with
  | nil => intro bar _; exact (Bool.and_true _).symm
  | cons e events ih =>
      intro bar hinit
      have hstep : (onProgress bar e).init = false ∧
          (onProgress bar e).visible = (bar.visible && !reachesEnd e) := by
        rw [onProgress]
        cases reachesEnd e <;> simp [hinit]
      rw [List.foldl_cons, ih hstep.1, hstep.2, List.all_cons, Bool.and_assoc]

/-- The bar is on screen after some events if there was one, and none hid it. -/
theorem barAfter_visible_iff (events : List Text) :
    (barAfter events).visible = true ↔ events ≠ [] ∧ ∀ e ∈ events, reachesEnd e = false := by
  cases events with
  | nil => exact iff_of_false (Bool.false_ne_true) fun h => h.1 rfl
  | cons e events =>
      have hfirst : (onProgress .fresh e).init = false ∧
          (onProgress .fresh e).visible = !reachesEnd e := by
        rw [onProgress]
        cases reachesEnd e <;> exact ⟨rfl, rfl⟩
      rw [barAfter, List.foldl_cons, visible_foldl events hfirst.1, hfirst.2,
        List.forall_mem_cons]
      simp

/-! ## Which chunks are passed on -/

theorem filterMap_lookUpChart (data : Text) :
    (lookUpChart data).acts.filterMap progressText = [] := by
  unfold lookUpChart
  split
  · rfl
  · split <;> rfl

/-- The event of a chunk is its number. -/
theorem progressEvents_eq (socket : SocketId) (chunks : List Text) :
    progressEvents socket chunks = chunks.filterMap progressMatch := by
  rw [progressEvents, List.filterMap_eq_flatMap_toList]
  refine List.flatMap_congr fun data _ => ?_
  cases hp : progressMatch data with
  | none =>
      rw [onStdoutData, sendProgress, hp]
      exact filterMap_lookUpChart data
  | some t =>
      rw [onStdoutData, sendProgress, hp]
      change t :: (lookUpChart data).acts.filterMap progressText = [t]
      rw [filterMap_lookUpChart]

theorem isWhiteSpace_of_isDigit {c : Char} (h : c.isDigit = true) : isWhiteSpace c = false := by
  cases hs : isWhiteSpace c with
  | false => rfl
  | true =>
      exfalso
      have hc : c ≤ '9' := by
        simp only [Char.isDigit, Bool.and_eq_true, decide_eq_true_eq] at h
        exact h.2
      simp only [isWhiteSpace, List.mem_cons, List.not_mem_nil, or_false, decide_eq_true_eq,
        Bool.or_eq_true, Bool.and_eq_true] at hs
      cases hs with
      | inl hmem =>
          rcases hmem with rfl | rfl | rfl | rfl | rfl | rfl | rfl | rfl | rfl | rfl | rfl | rfl |
            rfl | rfl <;> exact absurd h (by decide)
      | inr hrange => exact absurd (Char.le_trans hrange.1 hc) (by decide)

/-- The white space after a number is taken off. -/
theorem trim_decimal (m : Nat) : trim (decimal m ++ ['\r']) = decimal m := by
  have hdigits : ∀ c ∈ decimal m, isWhiteSpace c = false :=
    fun c hc => isWhiteSpace_of_isDigit (isDigit_of_mem_decimal hc)
  have hkeep : ∀ {t : Text}, t ≠ [] → (∀ c ∈ t, isWhiteSpace c = false) → ∀ u,
      (t ++ u).dropWhile isWhiteSpace = t ++ u := by
    intro t hne h u
    cases t with
    | nil => exact absurd rfl hne
    | cons c t =>
        rw [List.cons_append, List.dropWhile_cons_of_neg]
        rw [h c List.mem_cons_self]
        exact Bool.false_ne_true
  have hrev := hkeep (List.reverse_ne_nil_iff.mpr (decimal_ne_nil m))
    (fun c hc => hdigits c (List.mem_reverse.mp hc)) []
  rw [trim, hkeep (decimal_ne_nil m) hdigits, List.reverse_append,
    show (['\r'] : Text).reverse ++ (decimal m).reverse = '\r' :: (decimal m).reverse from rfl,
    List.dropWhile_cons_of_pos (by decide)]
  rw [List.append_nil] at hrev
  rw [hrev, List.reverse_reverse]

/-- The number after a thread, alone in a chunk, is passed on if it has two digits. -/
theorem progressMatch_progressLine (i n : Nat) :
    progressMatch (progressLine i n) =
      if 100 * i / n < 100 then some (decimal (100 * i / n)) else none := by
  rw [progressMatch, progressLine, trim_decimal]
  have hdigits : (decimal (100 * i / n)).all Char.isDigit = true :=
    List.all_eq_true.mpr fun c hc => isDigit_of_mem_decimal hc
  have hpos : 0 < (decimal (100 * i / n)).length := List.length_pos_iff.mpr (decimal_ne_nil _)
  have hlen : (decimal (100 * i / n)).length ≤ 2 ↔ 100 * i / n < 10 ^ 2 :=
    Nat.length_toDigits_le_iff (by decide) (by decide)
  have hiff : ((decimal (100 * i / n)).length = 1 ∨ (decimal (100 * i / n)).length = 2) ∧
      (decimal (100 * i / n)).all Char.isDigit = true ↔ 100 * i / n < 100 := by
    rw [and_iff_left hdigits]
    omega
  simp only [hiff]

/-- A chunk that begins with a letter is not passed on. -/
theorem progressMatch_cons {c : Char} (hspace : isWhiteSpace c = false)
    (hdigit : c.isDigit = false) (t : Text) : progressMatch (c :: t) = none := by
  have hmem : c ∈ trim (c :: t) := by
    rw [trim, List.dropWhile_cons_of_neg (by simp [hspace]), List.mem_reverse]
    have hall : c ∈ (c :: t).reverse := List.mem_reverse.mpr List.mem_cons_self
    rw [← List.takeWhile_append_dropWhile (p := isWhiteSpace) (l := (c :: t).reverse)] at hall
    cases List.mem_append.mp hall with
    | inl htake =>
        have := List.mem_takeWhile_imp htake
        rw [hspace] at this
        cases this
    | inr hdrop => exact hdrop
  rw [progressMatch, if_neg]
  rintro ⟨_, hdigits⟩
  have := List.all_eq_true.mp hdigits c hmem
  rw [hdigit] at this
  cases this

/-! ## The chunks of the extraction -/

/-- What is written and flushed arrives with what was in the buffer. -/
theorem flushed_say (pending : Text) {t : Text} (hne : t ≠ []) (as : List Act) :
    flushed pending (.stdout t :: .flush :: as) = (pending ++ t) :: flushed [] as := by
  rw [flushed, flushed, if_neg (List.append_ne_nil_of_right_ne_nil _ hne)]

/-- Lines that are flushed one by one arrive one by one. -/
theorem flushed_lines {line : Nat → Text} (hne : ∀ i, line i ≠ []) (as : List Act) :
    ∀ (pending : Text) (i : Nat) (is : List Nat),
      flushed pending (((i :: is).flatMap fun j => [Act.stdout (line j), .flush]) ++ as) =
        (pending ++ line i) :: (is.map line ++ flushed [] as)
  | pending, i, [] => flushed_say pending (hne i) as
  | pending, i, j :: is => by
      have hrest := flushed_lines hne as [] j is
      exact (flushed_say pending (hne i) _).trans (congrArg (List.cons _) hrest)

theorem progressLine_ne_nil (i n : Nat) : progressLine i n ≠ [] :=
  List.append_ne_nil_of_right_ne_nil _ (List.cons_ne_nil _ _)

/-- The first number comes after `yes`, the others come alone. -/
theorem extractionChunks_eq {H : HashOrder} {user : Text} {doc : Document} {fb : Fb}
    (h : (extract H user doc).result = .ok fb) (hne : doc ≠ []) :
    extractionChunks H user doc =
      ("yes\n".toList ++ progressLine 1 doc.length) ::
        ((List.range' 2 (doc.length - 1)).map fun i => progressLine i doc.length) ++
          ["finished creating JSON chat structure\n".toList] := by
  obtain ⟨n, hn⟩ := Nat.exists_eq_succ_of_ne_zero fun hlen => hne (List.length_eq_zero_iff.mp hlen)
  have hextract := h
  rw [extract] at hextract
  obtain ⟨chats, hchats, hrest, hacts⟩ := Traced.bind_eq_ok hextract
  rw [extractionChunks, extract, hacts, (threadLoop_rounds H _ doc 0 _).acts_of_ok hchats, rounds,
    hn, List.range'_succ]
  exact flushed_lines (fun i => progressLine_ne_nil i (n + 1)) _ "yes\n".toList 1 (List.range' 2 n)

/-- The events are the numbers of the threads after the first that have two
digits. -/
theorem progressEvents_extraction {H : HashOrder} {user : Text} {doc : Document} {fb : Fb}
    (h : (extract H user doc).result = .ok fb) (hne : doc ≠ []) (socket : SocketId) :
    progressEvents socket (extractionChunks H user doc) =
      (List.range' 2 (doc.length - 1)).filterMap fun i =>
        if 100 * i / doc.length < 100 then some (decimal (100 * i / doc.length)) else none := by
  have hyes : ∀ t, progressMatch ("yes\n".toList ++ t) = none :=
    fun t => progressMatch_cons (by decide) (by decide) _
  have hfinished : progressMatch "finished creating JSON chat structure\n".toList = none :=
    progressMatch_cons (c := 'f') (by decide) (by decide) _
  rw [progressEvents_eq, extractionChunks_eq h hne, List.filterMap_append,
    List.filterMap_cons_none (hyes _), List.filterMap_cons_none hfinished, List.filterMap_nil,
    List.append_nil, List.filterMap_map]
  refine List.filterMap_congr fun i _ => ?_
  exact progressMatch_progressLine i doc.length

/-! ## Which numbers hide the bar -/

/-- `parseInt` reads a number back. -/
theorem parseInt_decimal (m : Nat) : parseInt (decimal m) = some (m : Int) := by
  have hdigits : ∀ c ∈ decimal m, c.isDigit = true := fun c => isDigit_of_mem_decimal
  cases hm : decimal m with
  | nil => exact absurd hm (decimal_ne_nil m)
  | cons c t =>
      rw [hm] at hdigits
      have hc := hdigits c List.mem_cons_self
      have hminus : (c :: t).head? ≠ some '-' := by
        rintro ⟨⟩
        exact absurd hc (by decide)
      have hplus : (c :: t).head? ≠ some '+' := by
        rintro ⟨⟩
        exact absurd hc (by decide)
      have hradix : ¬((c :: t).take 2 = "0x".toList ∨ (c :: t).take 2 = "0X".toList) := by
        have hx : ∀ d, d.isDigit = false → (c :: t).take 2 ≠ ['0', d] := by
          intro d hd htake
          have hmem : d ∈ (c :: t).take 2 := by
            rw [htake]
            exact List.mem_cons_of_mem _ List.mem_cons_self
          rw [hdigits d (List.mem_of_mem_take hmem)] at hd
          cases hd
        exact fun h => h.elim (hx 'x' (by decide)) (hx 'X' (by decide))
      have htake : (c :: t).takeWhile Char.isDigit = c :: t := by
        rw [List.takeWhile_eq_self_iff]
        exact hdigits
      have hspace : (c :: t).dropWhile isWhiteSpace = c :: t := by
        rw [List.dropWhile_cons_of_neg]
        rw [isWhiteSpace_of_isDigit hc]
        exact Bool.false_ne_true
      simp only [parseInt, hspace, if_neg hminus, if_neg hplus, leadingNumber, if_neg hradix, htake,
        if_neg (List.cons_ne_nil c t), Option.map_some]
      rw [← hm, decimalValue_decimal]
      rfl

theorem reachesEnd_decimal (m : Nat) : reachesEnd (decimal m) = decide (99 ≤ m) := by
  rw [reachesEnd, parseInt_decimal, Option.any_some]
  exact decide_eq_decide.mpr Int.ofNat_le

/-- The last number with two digits is 99 only from a hundred threads on. -/
theorem largest_percentage {i n : Nat} (hn : n < 100) (h : 100 * i / n < 100) : 100 * i / n < 99 := by
  cases n with
  | zero => rw [Nat.div_zero]; decide
  | succ n =>
      have hi : 100 * i < 100 * (n + 1) := (Nat.div_lt_iff_lt_mul n.succ_pos).mp h
      refine (Nat.div_lt_iff_lt_mul n.succ_pos).mpr ?_
      omega

/-- The bar is on screen at the end for three to ninety-nine threads. -/
theorem barAfter_extraction_visible_iff {H : HashOrder} {user : Text} {doc : Document} {fb : Fb}
    (h : (extract H user doc).result = .ok fb) (hne : doc ≠ []) (socket : SocketId) :
    (barAfter (progressEvents socket (extractionChunks H user doc))).visible = true ↔
      3 ≤ doc.length ∧ doc.length < 100 := by
  have hpos : 0 < doc.length := List.length_pos_iff.mpr hne
  rw [barAfter_visible_iff, progressEvents_extraction h hne]
  generalize doc.length = n at hpos ⊢
  -- the events, one for each thread from the second to the last but one
  have hevent : ∀ e, e ∈ ((List.range' 2 (n - 1)).filterMap fun i =>
      if 100 * i / n < 100 then some (decimal (100 * i / n)) else none) ↔
        ∃ i, 2 ≤ i ∧ i < n ∧ e = decimal (100 * i / n) := by
    intro e
    simp only [List.mem_filterMap, List.mem_range'_1, Option.ite_none_right_eq_some,
      Option.some.injEq]
    refine exists_congr fun i => ?_
    rw [Nat.div_lt_iff_lt_mul hpos]
    constructor
    · rintro ⟨hi, hlt, rfl⟩
      exact ⟨hi.1, by omega, rfl⟩
    · rintro ⟨hi, hlt, rfl⟩
      exact ⟨⟨hi, by omega⟩, by omega, rfl⟩
  constructor
  · rintro ⟨hsome, hall⟩
    obtain ⟨e, he⟩ := List.exists_mem_of_ne_nil _ hsome
    obtain ⟨i, hi, hlt, _⟩ := (hevent e).mp he
    refine ⟨by omega, ?_⟩
    -- from a hundred threads on, the last but one is at 99
    by_contra hn
    have hlast := hall _ ((hevent _).mpr ⟨n - 1, by omega, by omega, rfl⟩)
    rw [reachesEnd_decimal, decide_eq_false_iff_not, Nat.le_div_iff_mul_le hpos] at hlast
    omega
  · rintro ⟨hthree, hhundred⟩
    refine ⟨List.ne_nil_of_mem ((hevent _).mpr ⟨2, le_refl 2, by omega, rfl⟩), fun e he => ?_⟩
    obtain ⟨i, _, hlt, rfl⟩ := (hevent e).mp he
    have hdigits : 100 * i / n < 100 := (Nat.div_lt_iff_lt_mul hpos).mpr (by omega)
    have hsmall := largest_percentage hhundred hdigits
    rw [reachesEnd_decimal, decide_eq_false_iff_not]
    omega

/-- A bar that some event has made visible is hidden at the end of the extraction
exactly when there are at most two threads or at least a hundred. -/
theorem progressBar_hidden_iff {H : HashOrder} {user : Text} {doc : Document} {fb : Fb}
    (h : (extract H user doc).result = .ok fb) (hne : doc ≠ []) (socket : SocketId) :
    ((∃ k, (barAfter ((progressEvents socket (extractionChunks H user doc)).take k)).visible =
        true) →
      (barAfter (progressEvents socket (extractionChunks H user doc))).visible = false) ↔
        doc.length ≤ 2 ∨ 100 ≤ doc.length := by
  have hend := barAfter_extraction_visible_iff h hne socket
  constructor
  · intro himp
    by_contra hn
    have hvisible := hend.mpr (by omega)
    have hshown := himp ⟨_, by rw [List.take_length]; exact hvisible⟩
    rw [hvisible] at hshown
    cases hshown
  · intro hn _
    rw [← Bool.not_eq_true, hend]
    omega

/-- A document of three threads without messages. -/
def threeThreads : Document := [[], [], []]

theorem progressBar_hidden_iff_three :
    threeThreads ≠ [] ∧
      (((∃ k, (barAfter ((progressEvents 0
          (extractionChunks .insertion "0a1b".toList threeThreads)).take k)).visible = true) →
        (barAfter (progressEvents 0
          (extractionChunks .insertion "0a1b".toList threeThreads))).visible = false) ↔
          threeThreads.length ≤ 2 ∨ 100 ≤ threeThreads.length) :=
  ⟨List.cons_ne_nil _ _, progressBar_hidden_iff rfl (List.cons_ne_nil _ _) 0⟩

/-- Of three threads only the second number, 66, reaches the page, and the bar
stays. -/
theorem progressBar_stays :
    ¬((∃ k, (barAfter ((progressEvents 0
        (extractionChunks .insertion "0a1b".toList threeThreads)).take k)).visible = true) →
      (barAfter (progressEvents 0
        (extractionChunks .insertion "0a1b".toList threeThreads))).visible = false) := by
  intro himp
  have hok : ∃ fb, (extract .insertion "0a1b".toList threeThreads).result = .ok fb := ⟨_, rfl⟩
  obtain ⟨fb, hfb⟩ := hok
  have hvisible := (barAfter_extraction_visible_iff hfb (List.cons_ne_nil _ _) 0).mpr (by decide)
  have hshown := himp ⟨_, by rw [List.take_length]; exact hvisible⟩
  rw [hvisible] at hshown
  cases hshown

end Browser
