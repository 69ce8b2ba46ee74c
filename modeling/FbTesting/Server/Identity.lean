import FbTesting.Server.Machine
import FbTesting.Server.Routes

/-!
# Who gets which session ID

`genuuid` keeps sixteen bits of a random value, rounded with the 1 that it adds:
the ID of a session is the number of the interval, of 65536 equally long ones, that
the value falls into, as four hexadecimal digits (`genuuid_text`).  Nothing compares
a new ID with those in use.
So the sessions of a run have different IDs exactly when their random values fell
into different intervals, and a run that creates more than 65536 sessions has two
with one ID.

The directory of a session and its entries in `userData` and `sockets` go by the
ID alone.
-/

namespace Server

open Base

/-! ## The digits of an ID -/

/-- The higher digits of a number and its `w` lowest ones. -/
theorem toDigits_eq_append_hex (w : Nat) : ∀ {n : Nat}, 16 ^ w ≤ n →
    Nat.toDigits 16 n = Nat.toDigits 16 (n / 16 ^ w) ++ hex w n := by
  induction w with
  | zero =>
      intro n _
      rw [Nat.pow_zero, Nat.div_one, hex, List.append_nil]
  | succ w ih =>
      intro n h
      have hpos : 0 < 16 ^ w := Nat.pow_pos (by decide)
      have hsplit : 16 ^ (w + 1) = 16 ^ w * 16 := pow_succ 16 w
      have hbase : 16 ≤ n := by
        rw [hsplit] at h
        exact (Nat.le_mul_of_pos_left 16 hpos).trans h
      have hdiv : 16 ^ w ≤ n / 16 := (Nat.le_div_iff_mul_le (by decide)).mpr (by rw [← hsplit]; exact h)
      rw [Nat.toDigits_of_base_le (by decide) hbase, ih hdiv, Nat.div_div_eq_div_mul,
        Nat.mul_comm 16, ← hsplit, hex, List.append_assoc]
      rfl

/-- The lowest digits do not depend on the higher ones. -/
theorem hex_mod (w : Nat) : ∀ n : Nat, hex w (n % 16 ^ w) = hex w n := by
  induction w with
  | zero => intro n; rfl
  | succ w ih =>
      intro n
      rw [hex, hex, Nat.pow_succ, Nat.mul_comm, Nat.mod_mul_right_div_self, Nat.mod_mul_right_mod, ih]

/-- The interval, of 65536 equally long ones on the circle of random values, that a
value falls into.  The rounding of `1 + Math.random()` moves their bounds down by
`2⁻⁵³`: the first one begins at `1 - 2⁻⁵³` and ends below `1/65536 - 2⁻⁵³`. -/
def Draw.slot (d : Draw) : Nat := ⌊d.value * 0x10000 + 1 / 2 ^ 37⌋₊ % 0x10000

theorem Draw.number_eq (d : Draw) : d.number = ⌊d.value * 0x10000 + 1 / 2 ^ 37⌋₊ + 0x10000 := by
  have hnonneg : 0 ≤ d.value * 0x10000 + 1 / 2 ^ 37 :=
    add_nonneg (mul_nonneg d.nonneg (by norm_num)) (by norm_num)
  refine eq_of_forall_le_iff fun k => ?_
  rw [d.le_number_iff, ← Nat.floor_add_natCast hnonneg, Nat.le_floor_iff (by positivity)]
  have hsplit : (1 + d.value) * 0x10000 + 1 / 2 ^ 37 =
      d.value * 0x10000 + 1 / 2 ^ 37 + ((0x10000 : Nat) : ℚ) := by
    push_cast
    ring
  rw [hsplit]

theorem Draw.slot_lt (d : Draw) : d.slot < 0x10000 := Nat.mod_lt _ (by decide)

/-- An ID is the number of the interval. -/
theorem genuuid_text (d : Draw) : (genuuid d).text = hex 4 d.slot := by
  have hlow : 16 ^ 4 ≤ d.number := d.number_bounds.1
  -- 2 where the sum is rounded to 2
  have hhigh : d.number / 16 ^ 4 < 16 := by
    have := d.number_bounds.2
    omega
  have hmod : d.number % 16 ^ 4 = d.slot := by
    rw [d.number_eq]
    exact Nat.add_mod_right _ _
  change (Nat.toDigits 16 d.number).drop 1 = _
  rw [toDigits_eq_append_hex 4 hlow, Nat.toDigits_of_lt_base hhigh, ← hex_mod, hmod]
  rfl

/-- Two random values give one ID exactly when they fall into one interval. -/
theorem genuuid_eq_iff {d e : Draw} : genuuid d = genuuid e ↔ d.slot = e.slot := by
  constructor
  · intro h
    have htext := congrArg SessionID.text h
    rw [genuuid_text, genuuid_text] at htext
    exact hex_injective d.slot_lt e.slot_lt htext
  · intro h
    refine SessionID.ext ?_
    rw [genuuid_text, genuuid_text, h]

/-! ## The sessions of a run -/

/-- The random value of an input. -/
def Input.draw : Input → Option Draw
  | .newSession d => some d
  | _ => none

/-- The random values of a run, oldest first. -/
def draws (is : List Input) : List Draw := is.filterMap Input.draw

section

variable {H : Analyser.HashOrder}

/-- A step adds the session it creates, if it creates one. -/
theorem step_sessions {σ : State} {i : Input} {r : State × List Obs} (h : step H σ i = some r) :
    r.1.sessions = (i.draw.map genuuid).toList ++ σ.sessions := by
  cases move_of_step h with
  | newSession _ => rfl
  | refused _ => rfl
  | connection _ _ _ => rfl
  | disconnect _ => rfl
  | upload _ _ => rfl
  | py _ _ => rfl
  | land _ _ => rfl
  | _ => rw [handle_eq]; rfl

/-- The sessions after a run are those before it and those of its random values. -/
theorem exec_sessions : ∀ {is : List Input} {σ : State} {r : State × List Obs},
    (machine H).exec System.anyInput σ is = some r →
      r.1.sessions = ((draws is).map genuuid).reverse ++ σ.sessions
  | [], σ, r, h => by
      cases h
      rfl
  | i :: is, σ, r, h => by
      rw [System.exec, if_pos (show System.anyInput σ i from trivial)] at h
      obtain ⟨q, hq, hrest⟩ := Option.bind_eq_some_iff.mp h
      obtain ⟨q', hq', rfl⟩ := Option.map_eq_some_iff.mp hrest
      change q'.1.sessions = _
      rw [exec_sessions hq', step_sessions hq]
      cases hd : i.draw with
      | none =>
          have hdraws : draws (i :: is) = draws is := List.filterMap_cons_none hd
          rw [hdraws]
          rfl
      | some d =>
          have hdraws : draws (i :: is) = d :: draws is := List.filterMap_cons_some hd
          rw [hdraws, List.map_cons, List.reverse_cons, List.append_assoc]
          rfl

theorem run_sessions {is : List Input} {r : State × List Obs}
    (h : (machine H).exec System.anyInput State.initial is = some r) :
    r.1.sessions = ((draws is).map genuuid).reverse := by
  rw [exec_sessions h]
  exact List.append_nil _

end

/-! ## Sessions that are kept apart -/

/-- Two sessions have different IDs, and with them different directories and
different entries in `userData` and in `sockets`, which go by the text of the ID. -/
structure Apart (cwd : Path) (s t : SessionID) : Prop where
  id : s ≠ t
  directory : userDir cwd s ≠ userDir cwd t
  entry : s.text ≠ t.text

theorem apart_iff (cwd : Path) (s t : SessionID) : Apart cwd s t ↔ s ≠ t := by
  constructor
  · intro h
    exact h.id
  · intro h
    have htext : s.text ≠ t.text := fun heq => h (SessionID.ext heq)
    refine ⟨h, fun hdir => ?_, htext⟩
    have hlast := List.append_cancel_left hdir
    exact htext (List.cons.inj (List.cons.inj hlast).2).1

/-- The sessions of a run are pairwise apart exactly when the random values they
were created with fall into different intervals. -/
theorem sessions_apart_iff {H : Analyser.HashOrder} {is : List Input} {r : State × List Obs}
    (h : (machine H).exec System.anyInput State.initial is = some r) (cwd : Path) :
    r.1.sessions.Pairwise (Apart cwd) ↔ (draws is).Pairwise fun d e => d.slot ≠ e.slot := by
  rw [run_sessions h, List.pairwise_reverse, List.pairwise_map]
  refine List.Pairwise.iff fun d e => ?_
  rw [apart_iff, Ne, genuuid_eq_iff, eq_comm]

/-- A run that creates more than 65536 sessions has two that are not apart. -/
theorem sessions_repeat {H : Analyser.HashOrder} {is : List Input} {r : State × List Obs}
    (h : (machine H).exec System.anyInput State.initial is = some r)
    (hmany : 0x10000 < (draws is).length) : ¬r.1.sessions.Nodup := by
  intro hnodup
  rw [run_sessions h, List.nodup_reverse, List.nodup_iff_pairwise_ne, List.pairwise_map] at hnodup
  have hslots : ((draws is).map Draw.slot).Nodup := by
    rw [List.nodup_iff_pairwise_ne, List.pairwise_map]
    exact hnodup.imp fun hne heq => hne (genuuid_eq_iff.mpr heq)
  have hsub : (draws is).map Draw.slot ⊆ List.range 0x10000 := by
    intro n hn
    obtain ⟨d, _, rfl⟩ := List.mem_map.mp hn
    exact List.mem_range.mpr d.slot_lt
  have hlen := (List.subperm_of_subset hslots hsub).length_le
  rw [List.length_map, List.length_range] at hlen
  omega

theorem Draw.small_bounds : (0 : ℚ) ≤ 1 / 131072 ∧ (1 : ℚ) / 131072 < 1 := by norm_num

/-- A value in the first of the intervals, like the least one. -/
def Draw.small : Draw := ⟨1 / 131072, Draw.small_bounds.1, Draw.small_bounds.2⟩

theorem Draw.slot_small : Draw.small.slot = Draw.least.slot := by
  have hleast : ⌊(0 : ℚ) * 0x10000 + 1 / 2 ^ 37⌋₊ = 0 := by
    rw [Nat.floor_eq_zero]
    norm_num
  have hsmall : ⌊(1 / 131072 : ℚ) * 0x10000 + 1 / 2 ^ 37⌋₊ = 0 := by
    rw [Nat.floor_eq_zero]
    norm_num
  change ⌊(1 / 131072 : ℚ) * 0x10000 + 1 / 2 ^ 37⌋₊ % 0x10000 =
    ⌊(0 : ℚ) * 0x10000 + 1 / 2 ^ 37⌋₊ % 0x10000
  rw [hsmall, hleast]

/-- Two visitors. -/
def twoVisitors : List Input := [.newSession .least, .newSession .small]

theorem sessions_apart_iff_two_visitors :
    (∃ r, (machine .insertion).exec System.anyInput State.initial twoVisitors = some r ∧
      (r.1.sessions.Pairwise (Apart []) ↔
        (draws twoVisitors).Pairwise fun d e => d.slot ≠ e.slot)) :=
  ⟨_, rfl, sessions_apart_iff (H := .insertion) rfl []⟩

/-- Two visitors with different random values get one ID. -/
theorem sessions_share_id :
    ¬∀ r, (machine .insertion).exec System.anyInput State.initial twoVisitors = some r →
      r.1.sessions.Pairwise (Apart []) := by
  intro h
  have hall := h _ rfl
  have hfirst := (List.pairwise_cons.mp hall).1 (genuuid .least) List.mem_cons_self
  exact hfirst.id (genuuid_eq_iff.mpr Draw.slot_small)

end Server
