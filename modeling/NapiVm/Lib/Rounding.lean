import Mathlib.Algebra.Group.Nat.Defs
import Mathlib.Data.Nat.Log
import Mathlib.Tactic.Common

/-!
# Rounding to so many significant bits

A number with `p` significant bits is `a * 2 ^ e` with `a < 2 ^ p`.

* `round` — the nearest such number, an even one on a tie.
* `nearest_iff` — it is the only nearest one.
* `Lost`, `nearest_foldl_iff` — a sum of digits that is rounded after each digit, and when that is
  as good as rounding once.
-/

namespace Rounding

variable {p m : Nat}

/-- The unit in the last of `p` places. -/
def ulp (p m : Nat) : Nat := 2 ^ (Nat.log 2 m + 1 - p)

/-- Rounded to `p` significant bits, to the nearest, ties to even. -/
def round (p m : Nat) : Nat :=
  if ulp p m < 2 * (m % ulp p m) ∨ ulp p m = 2 * (m % ulp p m) ∧ m / ulp p m % 2 = 1 then
    (m / ulp p m + 1) * ulp p m
  else m / ulp p m * ulp p m

/-- A number with `p` significant bits. -/
def Representable (p y : Nat) : Prop := ∃ a e, a < 2 ^ p ∧ y = a * 2 ^ e

/-- The distance of two numbers. -/
def dist (m y : Nat) : Nat := (m - y) + (y - m)

/-- No number is nearer, and on a tie the last place is even. -/
structure Nearest (p m y : Nat) : Prop where
  representable : Representable p y
  nearest : ∀ z, Representable p z → dist m y ≤ dist m z
  even : ∀ z, Representable p z → dist m y = dist m z → y ≠ z → 2 * ulp p m ∣ y

/-! ## The unit -/

theorem ulp_pos (p m : Nat) : 0 < ulp p m := Nat.two_pow_pos _

theorem ulp_of_lt (h : m < 2 ^ p) (hp : 0 < p) : ulp p m = 1 := by
  have hlog : Nat.log 2 m + 1 - p = 0 := by
    have hlt : Nat.log 2 m < p := by
      by_cases hm : m = 0
      · rw [hm, Nat.log_zero_right]
        exact hp
      · exact (Nat.log_lt_iff_lt_pow (by decide) hm).2 h
    omega
  rw [ulp, hlog, Nat.pow_zero]

/-- The unit of a number that does not fit is the one that its leading places count in. -/
theorem ulp_eq {j : Nat} (hp : 0 < p) (hle : 2 ^ (p - 1) * 2 ^ j ≤ m) (hlt : m < 2 ^ p * 2 ^ j) :
    ulp p m = 2 ^ j := by
  have hlog : Nat.log 2 m = p - 1 + j := by
    refine Nat.log_eq_of_pow_le_of_lt_pow ?_ ?_
    · rwa [Nat.pow_add]
    · rw [show p - 1 + j + 1 = p + j by omega, Nat.pow_add]
      exact hlt
  rw [ulp, hlog]
  congr 1
  omega

theorem exists_ulp (hp : 0 < p) (h : 2 ^ p ≤ m) : ∃ j, 0 < j ∧ ulp p m = 2 ^ j ∧
    2 ^ (p - 1) * 2 ^ j ≤ m ∧ m < 2 ^ p * 2 ^ j := by
  have hm : m ≠ 0 := Nat.ne_of_gt (Nat.lt_of_lt_of_le (Nat.two_pow_pos p) h)
  have hlog : p ≤ Nat.log 2 m := (Nat.le_log_iff_pow_le (by decide) hm).2 h
  refine ⟨Nat.log 2 m + 1 - p, by omega, rfl, ?_, ?_⟩
  · rw [← Nat.pow_add, show p - 1 + (Nat.log 2 m + 1 - p) = Nat.log 2 m by omega]
    exact Nat.pow_log_le_self 2 hm
  · rw [← Nat.pow_add, show p + (Nat.log 2 m + 1 - p) = Nat.log 2 m + 1 by omega]
    exact Nat.lt_pow_succ_log_self (by decide) m

/-! ## The neighbours -/

/-- A number between the multiples of its unit. -/
theorem eq_add_mod (p m : Nat) : m = m / ulp p m * ulp p m + m % ulp p m :=
  (Nat.div_add_mod' m (ulp p m)).symm

section

variable (hp : 0 < p)

include hp

theorem representable_floor (m : Nat) : Representable p (m / ulp p m * ulp p m) := by
  by_cases h : m < 2 ^ p
  · rw [ulp_of_lt h hp, Nat.div_one]
    exact ⟨m, 0, h, rfl⟩
  · obtain ⟨j, -, hulp, -, hlt⟩ := exists_ulp hp (Nat.le_of_not_lt h)
    rw [hulp]
    exact ⟨_, j, (Nat.div_lt_iff_lt_mul (Nat.two_pow_pos j)).2 hlt, rfl⟩

theorem representable_ceil (m : Nat) : Representable p ((m / ulp p m + 1) * ulp p m) := by
  have hfloor : ∃ j, ulp p m = 2 ^ j ∧ m / 2 ^ j < 2 ^ p := by
    by_cases h : m < 2 ^ p
    · exact ⟨0, ulp_of_lt h hp, by rwa [Nat.pow_zero, Nat.div_one]⟩
    · obtain ⟨j, -, hulp, -, hlt⟩ := exists_ulp hp (Nat.le_of_not_lt h)
      exact ⟨j, hulp, (Nat.div_lt_iff_lt_mul (Nat.two_pow_pos j)).2 hlt⟩
  obtain ⟨j, hulp, hlt⟩ := hfloor
  rw [hulp]
  by_cases hfull : m / 2 ^ j + 1 < 2 ^ p
  · exact ⟨_, j, hfull, rfl⟩
  · -- the carry into another place
    refine ⟨1, p + j, Nat.one_lt_two_pow (Nat.ne_of_gt hp), ?_⟩
    rw [Nat.one_mul, Nat.pow_add]
    exact congrArg (· * 2 ^ j) (Nat.le_antisymm hlt (Nat.le_of_not_lt hfull))

/-- No representable number lies between. -/
theorem le_floor_or_ceil_le (m : Nat) {z : Nat} (hz : Representable p z) :
    z ≤ m / ulp p m * ulp p m ∨ (m / ulp p m + 1) * ulp p m ≤ z := by
  by_cases h : m < 2 ^ p
  · rw [ulp_of_lt h hp, Nat.div_one, Nat.mul_one, Nat.mul_one]
    exact Nat.lt_or_ge m z |>.symm
  · obtain ⟨j, -, hulp, hle, -⟩ := exists_ulp hp (Nat.le_of_not_lt h)
    rw [hulp]
    have hfloor : 2 ^ (p - 1) * 2 ^ j ≤ m / 2 ^ j * 2 ^ j :=
      Nat.mul_le_mul_right _ ((Nat.le_div_iff_mul_le (Nat.two_pow_pos j)).2 hle)
    obtain ⟨a, e, ha, rfl⟩ := hz
    by_cases hsmall : a * 2 ^ e < 2 ^ (p - 1) * 2 ^ j
    · exact .inl (Nat.le_of_lt (Nat.lt_of_lt_of_le hsmall hfloor))
    · have hpow : 2 ^ (p - 1 + j) < 2 ^ (p + e) := by
        rw [Nat.pow_add, Nat.pow_add]
        exact Nat.lt_of_le_of_lt (Nat.le_of_not_lt hsmall)
          (Nat.mul_lt_mul_of_pos_right ha (Nat.two_pow_pos e))
      have he : j ≤ e := by
        have hlt := (Nat.pow_lt_pow_iff_right (by decide)).1 hpow
        omega
      have hmul : a * 2 ^ e = a * 2 ^ (e - j) * 2 ^ j := by
        rw [Nat.mul_assoc, ← Nat.pow_add, Nat.sub_add_cancel he]
      rw [hmul]
      rcases Nat.lt_or_ge (m / 2 ^ j) (a * 2 ^ (e - j)) with hlt | hge
      · exact .inr (Nat.mul_le_mul_right _ hlt)
      · exact .inl (Nat.mul_le_mul_right _ hge)

theorem nearest_round (m : Nat) : Nearest p m (round p m) := by
  have hceil := representable_ceil hp m
  have hfloor := representable_floor hp m
  have hgap := fun z (hz : Representable p z) => le_floor_or_ceil_le hp m hz
  have hstep : (m / ulp p m + 1) * ulp p m = m / ulp p m * ulp p m + ulp p m := Nat.succ_mul ..
  have hm := eq_add_mod p m
  have hr := Nat.mod_lt m (ulp_pos p m)
  rw [round]
  split
  · next hup =>
      refine ⟨hceil, fun z hz => ?_, fun z hz hdist hne => ?_⟩
      · have hz := hgap z hz
        unfold dist
        omega
      · have hz := hgap z hz
        unfold dist at hdist
        have htie : ulp p m = 2 * (m % ulp p m) ∧ m / ulp p m % 2 = 1 :=
          hup.resolve_left (by omega)
        exact Nat.mul_dvd_mul_right (Nat.dvd_of_mod_eq_zero (by omega)) _
  · next hdown =>
      refine ⟨hfloor, fun z hz => ?_, fun z hz hdist hne => ?_⟩
      · have hz := hgap z hz
        unfold dist
        omega
      · have hz := hgap z hz
        unfold dist at hdist
        exact Nat.mul_dvd_mul_right (Nat.dvd_of_mod_eq_zero (by omega)) _

theorem nearest_iff (m y : Nat) : Nearest p m y ↔ y = round p m := by
  refine ⟨fun h => ?_, fun h => h ▸ nearest_round hp m⟩
  by_contra hne
  have hround := nearest_round hp m
  have hdist : dist m y = dist m (round p m) :=
    Nat.le_antisymm (h.nearest _ hround.representable) (hround.nearest _ h.representable)
  have hy := h.even _ hround.representable hdist hne
  have hround' := hround.even _ h.representable hdist.symm (Ne.symm hne)
  -- two numbers at one distance are both neighbours, and not both even
  have hstep : (m / ulp p m + 1) * ulp p m = m / ulp p m * ulp p m + ulp p m := Nat.succ_mul ..
  have hm := eq_add_mod p m
  have hr := Nat.mod_lt m (ulp_pos p m)
  have hgap := le_floor_or_ceil_le hp m h.representable
  have hgap' := le_floor_or_ceil_le hp m hround.representable
  have hlow := h.nearest _ (representable_floor hp m)
  have hhigh := h.nearest _ (representable_ceil hp m)
  unfold dist at hdist hlow hhigh
  have hu : 2 * ulp p m ∣ ulp p m := by
    rcases Nat.lt_or_ge y (round p m) with hlt | hge
    · have hsub := Nat.dvd_sub hround' hy
      rwa [show round p m - y = ulp p m by omega] at hsub
    · have hsub := Nat.dvd_sub hy hround'
      rwa [show y - round p m = ulp p m by omega] at hsub
  have hle := Nat.le_of_dvd (ulp_pos p m) hu
  have hpos := ulp_pos p m
  omega

theorem round_of_representable (h : Representable p m) : round p m = m := by
  have hzero : dist m m = 0 := by
    unfold dist
    omega
  have hnearest : Nearest p m m := by
    refine ⟨h, fun z _ => hzero ▸ Nat.zero_le _, fun z _ hdist hne => ?_⟩
    unfold dist at hdist
    omega
  exact ((nearest_iff hp m m).1 hnearest).symm

end

theorem representable_of_lt (h : m < 2 ^ p) : Representable p m := ⟨m, 0, h, (Nat.mul_one m).symm⟩

theorem Representable.mul_two_pow (h : Representable p m) (k : Nat) :
    Representable p (m * 2 ^ k) := by
  obtain ⟨a, e, ha, rfl⟩ := h
  exact ⟨a, e + k, ha, by rw [Nat.mul_assoc, ← Nat.pow_add]⟩

theorem le_round (hp : 0 < p) (h : 2 ^ p ≤ m) : 2 ^ p ≤ round p m := by
  have hfloor : 2 ^ p ≤ m / ulp p m * ulp p m := by
    have hone : Representable p (2 ^ p) :=
      ⟨1, p, Nat.one_lt_two_pow (Nat.ne_of_gt hp), (Nat.one_mul _).symm⟩
    have hstep : (m / ulp p m + 1) * ulp p m = m / ulp p m * ulp p m + ulp p m := Nat.succ_mul ..
    have hm := eq_add_mod p m
    have hr := Nat.mod_lt m (ulp_pos p m)
    have hgap := le_floor_or_ceil_le hp m hone
    omega
  rw [round]
  split
  · exact hfloor.trans (Nat.mul_le_mul_right _ (Nat.le_succ _))
  · exact hfloor

/-! ## Digits -/

/-- More places behind a number that does not fit: the unit grows with them. -/
theorem ulp_shift (hp : 0 < p) (h : 2 ^ p ≤ m) {s w : Nat} (hw : w < 2 ^ s) :
    ulp p (m * 2 ^ s + w) = ulp p m * 2 ^ s ∧ (m * 2 ^ s + w) / (ulp p m * 2 ^ s) = m / ulp p m ∧
      (m * 2 ^ s + w) % (ulp p m * 2 ^ s) = m % ulp p m * 2 ^ s + w := by
  obtain ⟨j, -, hulp, hle, hlt⟩ := exists_ulp hp h
  have hcarry : (m + 1) * 2 ^ s ≤ 2 ^ p * 2 ^ j * 2 ^ s := Nat.mul_le_mul_right _ hlt
  have hkeep : 2 ^ (p - 1) * 2 ^ j * 2 ^ s ≤ m * 2 ^ s := Nat.mul_le_mul_right _ hle
  rw [Nat.succ_mul] at hcarry
  rw [Nat.mul_assoc] at hcarry hkeep
  have hunit : ulp p (m * 2 ^ s + w) = 2 ^ j * 2 ^ s := by
    rw [← Nat.pow_add] at hcarry hkeep ⊢
    exact ulp_eq hp (by omega) (by omega)
  have hrest : m % 2 ^ j * 2 ^ s + w < 2 ^ j * 2 ^ s := by
    have hmod : (m % 2 ^ j + 1) * 2 ^ s ≤ 2 ^ j * 2 ^ s :=
      Nat.mul_le_mul_right _ (Nat.mod_lt m (Nat.two_pow_pos j))
    rw [Nat.succ_mul] at hmod
    omega
  have hsum : m * 2 ^ s + w = 2 ^ j * 2 ^ s * (m / 2 ^ j) + (m % 2 ^ j * 2 ^ s + w) := by
    have hm := congrArg (· * 2 ^ s) (Nat.div_add_mod m (2 ^ j))
    simp only [Nat.add_mul] at hm
    rw [← Nat.add_assoc, Nat.mul_right_comm, hm]
  rw [hulp, hunit]
  refine ⟨rfl, ?_, ?_⟩
  · rw [hsum, Nat.mul_add_div (Nat.mul_pos (Nat.two_pow_pos j) (Nat.two_pow_pos s)),
      Nat.div_eq_of_lt hrest, Nat.add_zero]
  · rw [hsum, Nat.mul_add_mod, Nat.mod_eq_of_lt hrest]

/-- Half a unit that is rounded down. -/
def Halfway (p m : Nat) : Prop := 2 * (m % ulp p m) = ulp p m ∧ m / ulp p m % 2 = 0

/-- What stands behind the last place matters only at half a unit. -/
theorem round_shift_iff (hp : 0 < p) (h : 2 ^ p ≤ m) {s w : Nat} (hw : w < 2 ^ s) :
    round p m * 2 ^ s = round p (m * 2 ^ s + w) ↔ ¬ (Halfway p m ∧ w ≠ 0) := by
  obtain ⟨hunit, hdiv, hmod⟩ := ulp_shift hp h hw
  obtain ⟨j, hj, hulp, -, -⟩ := exists_ulp hp h
  have heven : ulp p m = 2 * 2 ^ (j - 1) := by
    rw [hulp, Nat.mul_comm, ← Nat.pow_succ]
    exact congrArg (2 ^ ·) (Nat.sub_add_cancel hj).symm
  have hT := Nat.two_pow_pos s
  have hpos : 0 < ulp p m * 2 ^ s := Nat.mul_pos (ulp_pos p m) hT
  have hstep : (m / ulp p m + 1) * (ulp p m * 2 ^ s) =
      m / ulp p m * (ulp p m * 2 ^ s) + ulp p m * 2 ^ s := Nat.succ_mul ..
  rw [Halfway, round, round, hunit, hdiv, hmod]
  generalize m % ulp p m = rest at *
  generalize ulp p m = u at *
  rcases Nat.lt_trichotomy (2 * rest) u with hlt | heq | hgt
  · have hbelow : (2 * rest + 2) * 2 ^ s ≤ u * 2 ^ s := Nat.mul_le_mul_right _ (by omega)
    rw [Nat.add_mul, Nat.mul_assoc] at hbelow
    rw [if_neg (by omega), if_neg (by omega), Nat.mul_assoc]
    exact iff_of_true rfl (by omega)
  · have hhalf : 2 * (rest * 2 ^ s) = u * 2 ^ s := by rw [← Nat.mul_assoc, heq]
    by_cases hodd : m / u % 2 = 1
    · rw [if_pos (by omega), if_pos (by omega), Nat.mul_assoc]
      exact iff_of_true rfl (by omega)
    · by_cases hzero : w = 0
      · rw [if_neg (by omega), if_neg (by omega), Nat.mul_assoc]
        exact iff_of_true rfl (by omega)
      · rw [if_neg (by omega), if_pos (by omega), Nat.mul_assoc]
        exact iff_of_false (by omega) (by omega)
  · have habove : (u + 1) * 2 ^ s ≤ 2 * rest * 2 ^ s := Nat.mul_le_mul_right _ hgt
    rw [Nat.succ_mul, Nat.mul_assoc] at habove
    rw [if_pos (by omega), if_pos (by omega), Nat.mul_assoc]
    exact iff_of_true rfl (by omega)

/-- A digit behind a number, with a rounding after each operation. -/
def push (p r v d : Nat) : Nat := round p (round p (v * r) + d)

/-- The first number that does not fit stands half a unit above an even one, and a digit that is
not zero follows. -/
def Lost (p r : Nat) : Nat → List Nat → Prop
  | _, [] => False
  | v, d :: ds =>
    if v * r + d < 2 ^ p then Lost p r (v * r + d) ds
    else Halfway p (v * r + d) ∧ ∃ d ∈ ds, d ≠ 0

section Digits

variable {k : Nat} {ds : List Nat}

theorem push_eq (hp : 0 < p) {v : Nat} (hv : Representable p v) (d : Nat) :
    push p (2 ^ k) v d = round p (v * 2 ^ k + d) := by
  rw [push, round_of_representable hp (hv.mul_two_pow k)]

/-- A digit behind a number that does not fit is lost. -/
theorem push_large (hp : 0 < p) {v d : Nat} (hv : Representable p v) (hle : 2 ^ p ≤ v)
    (hd : d < 2 ^ k) : push p (2 ^ k) v d = v * 2 ^ k := by
  rw [push_eq hp hv]
  have hfull : ¬ Halfway p v := by
    rintro ⟨hhalf, -⟩
    have hstep : (v / ulp p v + 1) * ulp p v = v / ulp p v * ulp p v + ulp p v := Nat.succ_mul ..
    have hm := eq_add_mod p v
    have hr := Nat.mod_lt v (ulp_pos p v)
    have hgap := le_floor_or_ceil_le hp v hv
    have hpos := ulp_pos p v
    omega
  rw [← (round_shift_iff hp hle hd).2 fun h => hfull h.1, round_of_representable hp hv]

theorem foldl_push_large (hp : 0 < p) {v : Nat} (hv : Representable p v) (hle : 2 ^ p ≤ v)
    (hds : ∀ d ∈ ds, d < 2 ^ k) : ds.foldl (push p (2 ^ k)) v = v * 2 ^ (k * ds.length) := by
  induction ds generalizing v with
  | nil => rw [List.length_nil, Nat.mul_zero, Nat.pow_zero, Nat.mul_one, List.foldl_nil]
  | cons d ds ih =>
    obtain ⟨hd, hrest⟩ := List.forall_mem_cons.1 hds
    have hmul : 2 ^ p ≤ v * 2 ^ k := hle.trans (Nat.le_mul_of_pos_right _ (Nat.two_pow_pos k))
    rw [List.foldl_cons, push_large hp hv hle hd, ih (hv.mul_two_pow k) hmul hrest,
      List.length_cons, Nat.mul_assoc, ← Nat.pow_add, Nat.mul_succ, Nat.add_comm]

/-- The number of digits behind a number. -/
theorem foldl_exact (v : Nat) (hds : ∀ d ∈ ds, d < 2 ^ k) : ∃ w < 2 ^ (k * ds.length),
    ds.foldl (fun v d => v * 2 ^ k + d) v = v * 2 ^ (k * ds.length) + w ∧
      (w ≠ 0 ↔ ∃ d ∈ ds, d ≠ 0) := by
  induction ds generalizing v with
  | nil =>
    refine ⟨0, Nat.two_pow_pos _, ?_, ?_⟩
    · rw [List.length_nil, Nat.mul_zero, Nat.pow_zero, Nat.mul_one, List.foldl_nil, Nat.add_zero]
    · exact iff_of_false (fun h => h rfl) fun ⟨_, hd, _⟩ => by cases hd
  | cons d ds ih =>
    obtain ⟨hd, hrest⟩ := List.forall_mem_cons.1 hds
    obtain ⟨w, hw, hfold, hzero⟩ := ih (v * 2 ^ k + d) hrest
    have hpow : 2 ^ (k * (ds.length + 1)) = 2 ^ k * 2 ^ (k * ds.length) := by
      rw [← Nat.pow_add, Nat.mul_succ, Nat.add_comm]
    have hbound : (d + 1) * 2 ^ (k * ds.length) ≤ 2 ^ k * 2 ^ (k * ds.length) :=
      Nat.mul_le_mul_right _ hd
    rw [Nat.succ_mul] at hbound
    refine ⟨d * 2 ^ (k * ds.length) + w, ?_, ?_, ?_⟩
    · rw [List.length_cons, hpow]
      omega
    · rw [List.foldl_cons, hfold, List.length_cons, hpow, Nat.add_mul, Nat.mul_assoc, Nat.add_assoc]
    · have hpos := Nat.two_pow_pos (k * ds.length)
      have hcons : (∃ e ∈ d :: ds, e ≠ 0) ↔ d ≠ 0 ∨ ∃ e ∈ ds, e ≠ 0 := by
        simp only [List.mem_cons, or_and_right, exists_or, exists_eq_left]
      rw [hcons, ← hzero, Ne, Nat.add_eq_zero_iff, Nat.mul_eq_zero]
      omega

/-- Rounding after each digit is as good as rounding once unless a half is lost. -/
theorem nearest_foldl_iff (hp : 0 < p) {v : Nat} (hv : v < 2 ^ p) (hds : ∀ d ∈ ds, d < 2 ^ k) :
    Nearest p (ds.foldl (fun v d => v * 2 ^ k + d) v) (ds.foldl (push p (2 ^ k)) v) ↔
      ¬ Lost p (2 ^ k) v ds := by
  induction ds generalizing v with
  | nil =>
    rw [nearest_iff hp]
    exact iff_of_true (round_of_representable hp (representable_of_lt hv)).symm id
  | cons d ds ih =>
    obtain ⟨hd, hrest⟩ := List.forall_mem_cons.1 hds
    rw [List.foldl_cons, List.foldl_cons, push_eq hp (representable_of_lt hv), Lost]
    by_cases hfits : v * 2 ^ k + d < 2 ^ p
    · rw [if_pos hfits, round_of_representable hp (representable_of_lt hfits)]
      exact ih hfits hrest
    · have hle := Nat.le_of_not_lt hfits
      obtain ⟨w, hw, hfold, hzero⟩ := foldl_exact (v * 2 ^ k + d) hrest
      rw [if_neg hfits, nearest_iff hp, hfold, ← hzero,
        foldl_push_large hp (nearest_round hp _).representable (le_round hp hle) hrest]
      exact round_shift_iff hp hle hw

end Digits

end Rounding
