/-
Retargeting among numbers without bounds.

`Retarget.next` multiplies in 128-bit words that stay at their largest value, divides, moves
the quotient into the interval of one step down and up, then into that of floor and ceiling,
and cuts the result to 64 bits.  This file says what that comes to.

  * Nothing goes wrong on the way: `next?` is the same computation with every operation
    checked, and it never refuses (`next?_eq_some`).  What makes it so is `Ordered`: parameters
    of any kind give bounds that do not cross and a step that is not zero.
  * The step up never reaches 128 bits (`stepUp_eq`), so bounds, step limit and monotony hold
    as they would without words (`Steady`).
  * The product with the time aimed for can reach them.  Where it does, the quotient is that of
    the largest word, so `next` is the formula without bounds (`ideal`), cut off at that quotient
    but not below the lowest difficulty that the step and the floor allow
    (`toNat_next_eq_min`).  That is seen only after a search of more than `2 ^ 64` nanoseconds,
    longer than any that a block on the wire can tell of.
-/
import AttestedLedger.Params.Retarget
import Mathlib.Algebra.Group.Nat.Defs
import Mathlib.Data.UInt
import Mathlib.Order.MinMax

namespace AttestedLedger.Retarget

/-! ### Moving a number into an interval -/

section clamp

variable {x y lo lo' hi hi' : Nat}

theorem clamp_eq (h : lo ≤ hi) : clamp x lo hi = max lo (min x hi) := by
  unfold clamp
  split
  · omega
  · split <;> omega

theorem le_clamp (h : lo ≤ hi) : lo ≤ clamp x lo hi := by
  rw [clamp_eq h]
  exact Nat.le_max_left _ _

theorem clamp_le (h : lo ≤ hi) : clamp x lo hi ≤ hi := by
  rw [clamp_eq h]
  exact Nat.max_le.mpr ⟨h, Nat.min_le_right _ _⟩

/-- A number that is in the interval stays. -/
theorem clamp_eq_self (hlo : lo ≤ x) (hhi : x ≤ hi) : clamp x lo hi = x := by
  rw [clamp, if_neg (Nat.not_lt.mpr hlo), if_neg (Nat.not_lt.mpr hhi)]

theorem clamp_mono (h : lo ≤ hi) (h' : lo' ≤ hi') (hx : x ≤ y) (hlo : lo ≤ lo') (hhi : hi ≤ hi') :
    clamp x lo hi ≤ clamp y lo' hi' := by
  rw [clamp_eq h, clamp_eq h']
  exact max_le_max hlo (min_le_min hx hhi)

/-- A cut in front of an interval is a cut behind it, but not below the interval. -/
theorem clamp_min (h : lo ≤ hi) : clamp (min x y) lo hi = min (clamp x lo hi) (max lo y) := by
  rw [clamp_eq h, clamp_eq h]
  omega

end clamp

/-! ### Bounds in order -/

/-- Bounds that do not cross, above zero, and a step that is not zero. -/
structure Ordered (r : Retarget) : Prop where
  positive : 1 ≤ r.minimum.toNat
  bounds : r.minimum.toNat ≤ r.maximum.toNat
  step : 1 ≤ r.maxStep.toNat

/-- Whatever the parameters are, the bounds they give are in order. -/
theorem ordered_ofParams (p : Params) : (ofParams p).Ordered where
  positive := by
    rw [ofParams, UInt64.toNat_max]
    exact Nat.le_max_right _ _
  bounds := by
    rw [ofParams, UInt64.toNat_max p.maximumDifficulty]
    exact Nat.le_max_right _ _
  step := by
    rw [ofParams, UInt64.toNat_max]
    exact Nat.le_max_right _ _

/-! ### The parts of the computation -/

/-- What the previous difficulty counts as. -/
def basis (previous : UInt64) : Nat := max previous.toNat 1

/-- The largest step up. -/
def stepUp (r : Retarget) (start : Nat) : Nat := saturatingMul start r.maxStep.toNat

/-- The largest step down. -/
def stepDown (r : Retarget) (start : Nat) : Nat := max (start / r.maxStep.toNat) 1

/-- The difficulty in proportion to the time, by one step at most. -/
def proposed (r : Retarget) (nanos start : Nat) : Nat :=
  if nanos = 0 then r.stepUp start
  else
    clamp (saturatingMul start r.targetBlockTime.nanos / nanos) (r.stepDown start) (r.stepUp start)

theorem one_le_basis (previous : UInt64) : 1 ≤ basis previous := Nat.le_max_right _ _

theorem basis_lt (previous : UInt64) : basis previous < UInt64.size :=
  Nat.max_lt.mpr ⟨previous.toNat_lt, by decide⟩

theorem basis_eq {previous : UInt64} (h : 1 ≤ previous.toNat) : basis previous = previous.toNat :=
  Nat.max_eq_left h

theorem basis_mono {previous harder : UInt64} (h : previous ≤ harder) :
    basis previous ≤ basis harder :=
  max_le_max (UInt64.le_iff_toNat_le.mp h) (Nat.le_refl 1)

theorem saturatingMul_mono {x y : Nat} (h : x ≤ y) (factor : Nat) :
    saturatingMul x factor ≤ saturatingMul y factor :=
  min_le_min (Nat.mul_le_mul_right factor h) (Nat.le_refl _)

/-- The product of two 64-bit words stays below the largest of 128 bits. -/
theorem stepUp_eq (r : Retarget) {start : Nat} (h : start < UInt64.size) :
    r.stepUp start = start * r.maxStep.toNat := by
  have hproduct : start * r.maxStep.toNat ≤ (UInt64.size - 1) * (UInt64.size - 1) :=
    Nat.mul_le_mul (Nat.le_sub_one_of_lt h) (Nat.le_sub_one_of_lt r.maxStep.toNat_lt)
  exact Nat.min_eq_left (Nat.le_trans hproduct (by decide))

theorem stepDown_le (r : Retarget) {start : Nat} (h : 1 ≤ start) : r.stepDown start ≤ start :=
  Nat.max_le.mpr ⟨Nat.div_le_self _ _, h⟩

namespace Ordered

variable {r : Retarget} {nanos start : Nat}

theorem le_stepUp (h : r.Ordered) (hword : start < UInt64.size) : start ≤ r.stepUp start := by
  rw [stepUp_eq r hword]
  exact Nat.le_mul_of_pos_right start h.step

theorem stepDown_le_stepUp (h : r.Ordered) (hpositive : 1 ≤ start) (hword : start < UInt64.size) :
    r.stepDown start ≤ r.stepUp start :=
  Nat.le_trans (stepDown_le r hpositive) (h.le_stepUp hword)

theorem stepDown_le_proposed (h : r.Ordered) (hpositive : 1 ≤ start)
    (hword : start < UInt64.size) : r.stepDown start ≤ r.proposed nanos start := by
  have horder := h.stepDown_le_stepUp hpositive hword
  rw [proposed]
  split
  · exact horder
  · exact le_clamp horder

theorem proposed_le_stepUp (h : r.Ordered) (hpositive : 1 ≤ start) (hword : start < UInt64.size) :
    r.proposed nanos start ≤ r.stepUp start := by
  rw [proposed]
  split
  · exact Nat.le_refl _
  · exact clamp_le (h.stepDown_le_stepUp hpositive hword)

/-- A longer search proposes no more. -/
theorem proposed_antitone (h : r.Ordered) (hpositive : 1 ≤ start) (hword : start < UInt64.size)
    {short long : Nat} (htime : short ≤ long) :
    r.proposed long start ≤ r.proposed short start := by
  have horder := h.stepDown_le_stepUp hpositive hword
  -- no time at all proposes the whole step up, which no other time exceeds
  by_cases hshort : short = 0
  · rw [hshort]
    exact h.proposed_le_stepUp hpositive hword
  · have hlong : long ≠ 0 := fun hzero => hshort (Nat.le_zero.mp (hzero ▸ htime))
    rw [proposed, proposed, if_neg hshort, if_neg hlong]
    exact clamp_mono horder horder (Nat.div_le_div_left htime (Nat.pos_of_ne_zero hshort))
      (Nat.le_refl _) (Nat.le_refl _)

/-- A larger difficulty proposes no less. -/
theorem proposed_mono (h : r.Ordered) (hpositive : 1 ≤ start) {harder : Nat}
    (hword : harder < UInt64.size) (hle : start ≤ harder) :
    r.proposed nanos start ≤ r.proposed nanos harder := by
  have hup : r.stepUp start ≤ r.stepUp harder := saturatingMul_mono hle _
  rw [proposed, proposed]
  split
  · exact hup
  · refine clamp_mono (h.stepDown_le_stepUp hpositive (Nat.lt_of_le_of_lt hle hword))
      (h.stepDown_le_stepUp (Nat.le_trans hpositive hle) hword) ?_ ?_ hup
    · exact Nat.div_le_div_right (saturatingMul_mono hle _)
    · exact max_le_max (Nat.div_le_div_right hle) (Nat.le_refl 1)

/-- The cut to 64 bits loses nothing. -/
theorem toNat_next (h : r.Ordered) (time : Duration) (previous : UInt64) :
    (r.next time previous).toNat =
      clamp (r.proposed time.nanos (basis previous)) r.minimum.toNat r.maximum.toNat :=
  UInt64.toNat_ofNat_of_lt' (Nat.lt_of_le_of_lt (clamp_le h.bounds) r.maximum.toNat_lt)

end Ordered

/-! ### The computation with every operation checked -/

/-- A quotient, unless it is one by zero. -/
def div? (x y : Nat) : Option Nat := if y = 0 then none else some (x / y)

/-- A number moved into an interval, unless its bounds cross. -/
def clamp? (x lo hi : Nat) : Option Nat := if lo ≤ hi then some (clamp x lo hi) else none

/-- A number as a word, if it is one. -/
def word? (x : Nat) : Option UInt64 := if x < UInt64.size then some (.ofNat x) else none

/-- The difficulty in proportion to the time, unless one of the operations is refused. -/
def scaled? (r : Retarget) (nanos start lower upper : Nat) : Option Nat :=
  if nanos = 0 then some upper
  else do clamp? (← div? (saturatingMul start r.targetBlockTime.nanos) nanos) lower upper

/-- The next difficulty, unless one of the operations that give it is refused. -/
def next? (r : Retarget) (time : Duration) (previous : UInt64) : Option UInt64 := do
  let start := max previous.toNat 1
  let upper := saturatingMul start r.maxStep.toNat
  let lower := max (← div? start r.maxStep.toNat) 1
  let scaled ← r.scaled? time.nanos start lower upper
  word? (← clamp? scaled r.minimum.toNat r.maximum.toNat)

/-- A quotient put between bounds that do not cross. -/
theorem scaled?_eq_some (r : Retarget) (nanos start : Nat)
    (h : r.stepDown start ≤ r.stepUp start) :
    r.scaled? nanos start (r.stepDown start) (r.stepUp start) = some (r.proposed nanos start) := by
  rw [scaled?, proposed]
  split
  · rfl
  · rename_i hnanos
    rw [div?, if_neg hnanos]
    exact if_pos h

/-- **No operation is refused.** -/
theorem Ordered.next?_eq_some {r : Retarget} (h : r.Ordered) (time : Duration) (previous : UInt64) :
    r.next? time previous = some (r.next time previous) := by
  have hstep : div? (basis previous) r.maxStep.toNat = some (basis previous / r.maxStep.toNat) :=
    if_neg (Nat.pos_iff_ne_zero.mp h.step)
  have hscaled := scaled?_eq_some r time.nanos (basis previous)
    (h.stepDown_le_stepUp (one_le_basis previous) (basis_lt previous))
  have hclamp : clamp? (r.proposed time.nanos (basis previous)) r.minimum.toNat r.maximum.toNat
      = some (r.next time previous).toNat := by
    rw [h.toNat_next]
    exact if_pos h.bounds
  have hword : word? (r.next time previous).toNat = some (r.next time previous) := by
    rw [word?, if_pos (r.next time previous).toNat_lt, UInt64.ofNat_toNat]
  calc r.next? time previous
      = (div? (basis previous) r.maxStep.toNat).bind fun quotient =>
          (r.scaled? time.nanos (basis previous) (max quotient 1) (r.stepUp (basis previous))).bind
            fun scaled => (clamp? scaled r.minimum.toNat r.maximum.toNat).bind word? := rfl
    _ = (r.scaled? time.nanos (basis previous) (r.stepDown (basis previous))
          (r.stepUp (basis previous))).bind
            fun scaled => (clamp? scaled r.minimum.toNat r.maximum.toNat).bind word? := by
        rw [hstep]
        rfl
    _ = (clamp? (r.proposed time.nanos (basis previous)) r.minimum.toNat r.maximum.toNat).bind
          word? := by
        rw [hscaled, Option.bind_some]
    _ = some (r.next time previous) := by
        rw [hclamp, Option.bind_some, hword]

/-! ### Bounds, step and monotony -/

/-- Difficulties that move steadily. -/
structure Steady (r : Retarget) : Prop where
  /-- No bounds cross, nothing is divided by zero, and no answer is cut off. -/
  checked : ∀ time previous, r.next? time previous = some (r.next time previous)
  floor : ∀ time previous, r.minimum ≤ r.next time previous
  ceiling : ∀ time previous, r.next time previous ≤ r.maximum
  /-- From within the bounds the difficulty falls by a factor of one step at most. -/
  falls : ∀ time previous, r.minimum ≤ previous → previous ≤ r.maximum →
    previous.toNat / r.maxStep.toNat ≤ (r.next time previous).toNat
  /-- From within the bounds the difficulty rises by a factor of one step at most. -/
  rises : ∀ time previous, r.minimum ≤ previous → previous ≤ r.maximum →
    (r.next time previous).toNat ≤ previous.toNat * r.maxStep.toNat
  /-- A search that took no time is answered by the largest step up. -/
  instant : ∀ previous, (r.next .zero previous).toNat =
    clamp (max previous.toNat 1 * r.maxStep.toNat) r.minimum.toNat r.maximum.toNat
  /-- After a shorter search the difficulty is no smaller. -/
  shorter : ∀ previous (short long : Duration), short.nanos ≤ long.nanos →
    r.next long previous ≤ r.next short previous
  /-- After a larger difficulty the next is no smaller. -/
  larger : ∀ time (previous harder : UInt64), previous ≤ harder →
    r.next time previous ≤ r.next time harder

namespace Ordered

variable {r : Retarget}

/-- A difficulty within the bounds counts as itself. -/
theorem basis_of_le (h : r.Ordered) {previous : UInt64} (hfloor : r.minimum ≤ previous) :
    basis previous = previous.toNat :=
  basis_eq (Nat.le_trans h.positive (UInt64.le_iff_toNat_le.mp hfloor))

/-- The difficulty falls by one step at most, but for the ceiling. -/
theorem le_toNat_next (h : r.Ordered) (time : Duration) (previous : UInt64) :
    min (basis previous / r.maxStep.toNat) r.maximum.toNat ≤ (r.next time previous).toNat := by
  have hproposed : r.stepDown (basis previous) ≤ r.proposed time.nanos (basis previous) :=
    h.stepDown_le_proposed (one_le_basis previous) (basis_lt previous)
  have hquotient := Nat.le_trans (Nat.le_max_left _ 1) hproposed
  rw [h.toNat_next, clamp_eq h.bounds]
  exact Nat.le_trans (min_le_min hquotient (Nat.le_refl _)) (Nat.le_max_right _ _)

/-- The difficulty rises by one step at most, but for the floor. -/
theorem toNat_next_le (h : r.Ordered) (time : Duration) (previous : UInt64) :
    (r.next time previous).toNat ≤ max r.minimum.toNat (basis previous * r.maxStep.toNat) := by
  have hproposed : r.proposed time.nanos (basis previous) ≤ r.stepUp (basis previous) :=
    h.proposed_le_stepUp (one_le_basis previous) (basis_lt previous)
  rw [stepUp_eq r (basis_lt previous)] at hproposed
  rw [h.toNat_next, clamp_eq h.bounds]
  exact max_le_max (Nat.le_refl _) (Nat.le_trans (Nat.min_le_left _ _) hproposed)

theorem falls (h : r.Ordered) (time : Duration) {previous : UInt64} (hfloor : r.minimum ≤ previous)
    (hceiling : previous ≤ r.maximum) :
    previous.toNat / r.maxStep.toNat ≤ (r.next time previous).toNat := by
  have hquotient : previous.toNat / r.maxStep.toNat ≤ r.maximum.toNat :=
    Nat.le_trans (Nat.div_le_self _ _) (UInt64.le_iff_toNat_le.mp hceiling)
  have hnext := h.le_toNat_next time previous
  rwa [h.basis_of_le hfloor, Nat.min_eq_left hquotient] at hnext

theorem rises (h : r.Ordered) (time : Duration) {previous : UInt64}
    (hfloor : r.minimum ≤ previous) :
    (r.next time previous).toNat ≤ previous.toNat * r.maxStep.toNat := by
  have hproduct : r.minimum.toNat ≤ previous.toNat * r.maxStep.toNat :=
    Nat.le_trans (UInt64.le_iff_toNat_le.mp hfloor) (Nat.le_mul_of_pos_right _ h.step)
  have hnext := h.toNat_next_le time previous
  rwa [h.basis_of_le hfloor, Nat.max_eq_right hproduct] at hnext

/-- **Bounds in order make difficulties move steadily.** -/
theorem steady (h : r.Ordered) : r.Steady where
  checked := h.next?_eq_some
  floor := by
    intro time previous
    rw [UInt64.le_iff_toNat_le, h.toNat_next]
    exact le_clamp h.bounds
  ceiling := by
    intro time previous
    rw [UInt64.le_iff_toNat_le, h.toNat_next]
    exact clamp_le h.bounds
  falls := fun time _ => h.falls time
  rises := fun time _ hfloor _ => h.rises time hfloor
  instant := by
    intro previous
    have hzero : Duration.zero.nanos = 0 := rfl
    rw [h.toNat_next, proposed, if_pos hzero, stepUp_eq r (basis_lt previous), basis]
  shorter := by
    intro previous short long htime
    rw [UInt64.le_iff_toNat_le, h.toNat_next, h.toNat_next]
    exact clamp_mono h.bounds h.bounds
      (h.proposed_antitone (one_le_basis previous) (basis_lt previous) htime)
      (Nat.le_refl _) (Nat.le_refl _)
  larger := by
    intro time previous harder hle
    rw [UInt64.le_iff_toNat_le, h.toNat_next, h.toNat_next]
    exact clamp_mono h.bounds h.bounds
      (h.proposed_mono (one_le_basis previous) (basis_lt harder) (basis_mono hle))
      (Nat.le_refl _) (Nat.le_refl _)

end Ordered

/-! ### The formula without bounds -/

/-- The difficulty after one of difficulty `previous` that took `nanos`, among numbers without
bounds. -/
def ideal (p : Params) (nanos previous : Nat) : Nat :=
  clamp
    (clamp (previous * p.targetBlockTime.nanos / nanos) (max 1 (previous / p.maxRetargetStep.toNat))
      (previous * p.maxRetargetStep.toNat))
    p.minimumDifficulty.toNat p.maximumDifficulty.toNat

/-- The lowest difficulty that floor and step allow after `previous`. -/
def lowest (p : Params) (previous : Nat) : Nat :=
  max p.minimumDifficulty.toNat (previous / p.maxRetargetStep.toNat)

/-- What validation promises of the parameters that retargeting reads. -/
theorem bounds_of_valid {p : Params} (h : p.fault? = none) :
    1 ≤ p.minimumDifficulty.toNat ∧ p.minimumDifficulty.toNat ≤ p.maximumDifficulty.toNat ∧
      1 ≤ p.maxRetargetStep.toNat := by
  unfold Params.fault? at h
  split at h
  · exact absurd h (by simp)
  rename_i hpositive
  split at h
  · exact absurd h (by simp)
  rename_i hbounds
  split at h
  · exact absurd h (by simp)
  rename_i hstep
  rw [not_or] at hpositive
  rw [gt_iff_lt, UInt64.not_lt, UInt64.le_iff_toNat_le] at hbounds
  have hnonzero : ∀ {x : UInt64}, ¬x = 0 → 1 ≤ x.toNat := fun hx =>
    Nat.pos_of_ne_zero fun hzero => hx (UInt64.toNat_inj.mp hzero)
  exact ⟨hnonzero hpositive.1, hbounds, hnonzero hstep⟩

/-- A quotient of a product that stays at the largest word stays at the quotient of that. -/
theorem saturatingMul_div (x y d : Nat) : saturatingMul x y / d = min (x * y / d) (wordMax / d) :=
  Monotone.map_min fun _ _ hle => Nat.div_le_div_right hle

section valid

variable {p : Params} {time : Duration} {previous : UInt64}

/-- Parameters that are accepted are used as they are, and no word but that of the product with the
time aimed for can be full. -/
theorem toNat_next_of_valid (hvalid : p.fault? = none) (htime : 0 < time.nanos)
    (hprevious : 1 ≤ previous.toNat) :
    ((ofParams p).next time previous).toNat =
      clamp
        (clamp (saturatingMul previous.toNat p.targetBlockTime.nanos / time.nanos)
          (max 1 (previous.toNat / p.maxRetargetStep.toNat))
          (previous.toNat * p.maxRetargetStep.toNat))
        p.minimumDifficulty.toNat p.maximumDifficulty.toNat := by
  obtain ⟨hpositive, hbounds, hstep⟩ := bounds_of_valid hvalid
  have hminimum : (ofParams p).minimum.toNat = p.minimumDifficulty.toNat := by
    rw [ofParams, UInt64.toNat_max]
    exact Nat.max_eq_left hpositive
  have hmaximum : (ofParams p).maximum.toNat = p.maximumDifficulty.toNat := by
    rw [← hminimum] at hbounds
    rw [ofParams, UInt64.toNat_max]
    exact Nat.max_eq_left hbounds
  have hmaxStep : (ofParams p).maxStep.toNat = p.maxRetargetStep.toNat := by
    rw [ofParams, UInt64.toNat_max]
    exact Nat.max_eq_left hstep
  rw [(ordered_ofParams p).toNat_next, proposed, if_neg (Nat.ne_of_gt htime),
    stepUp_eq _ (basis_lt previous), stepDown, basis_eq hprevious, hminimum, hmaximum, hmaxStep,
    Nat.max_comm _ 1]
  rfl

/-- A step down and a step up do not cross. -/
theorem steps_of_valid (hvalid : p.fault? = none) (hprevious : 1 ≤ previous.toNat) :
    max 1 (previous.toNat / p.maxRetargetStep.toNat) ≤ previous.toNat ∧
      previous.toNat ≤ previous.toNat * p.maxRetargetStep.toNat :=
  ⟨Nat.max_le.mpr ⟨hprevious, Nat.div_le_self _ _⟩,
    Nat.le_mul_of_pos_right _ (bounds_of_valid hvalid).2.2⟩

/-- **The difficulty is the formula's, cut off at the quotient of the largest word.** -/
theorem toNat_next_eq_min (hvalid : p.fault? = none) (htime : 0 < time.nanos)
    (hprevious : 1 ≤ previous.toNat) :
    ((ofParams p).next time previous).toNat =
      min (ideal p time.nanos previous.toNat)
        (max (lowest p previous.toNat) (wordMax / time.nanos)) := by
  obtain ⟨hpositive, hbounds, -⟩ := bounds_of_valid hvalid
  obtain ⟨hdown, hup⟩ := steps_of_valid hvalid hprevious
  rw [toNat_next_of_valid hvalid htime hprevious, saturatingMul_div,
    clamp_min (Nat.le_trans hdown hup), clamp_min hbounds, ideal, lowest]
  omega

theorem ideal_le (hvalid : p.fault? = none) (nanos previous : Nat) :
    ideal p nanos previous ≤ p.maximumDifficulty.toNat :=
  clamp_le (bounds_of_valid hvalid).2.1

/-- A search as long as it should be keeps a difficulty that is within the bounds. -/
theorem ideal_on_target (hvalid : p.fault? = none) (htarget : 0 < p.targetBlockTime.nanos)
    (hfloor : p.minimumDifficulty ≤ previous) (hceiling : previous ≤ p.maximumDifficulty) :
    ideal p p.targetBlockTime.nanos previous.toNat = previous.toNat := by
  rw [UInt64.le_iff_toNat_le] at hfloor hceiling
  have hprevious := Nat.le_trans (bounds_of_valid hvalid).1 hfloor
  obtain ⟨hdown, hup⟩ := steps_of_valid hvalid hprevious
  rw [ideal, Nat.mul_div_cancel _ htarget, clamp_eq_self hdown hup, clamp_eq_self hfloor hceiling]

/-- A search of 64 bits of nanoseconds is too short for a full word to show: the quotient of the
largest word is then the largest difficulty at least. -/
theorem toNat_next_of_short (hvalid : p.fault? = none) (htime : 0 < time.nanos)
    (hshort : time.nanos ≤ UInt64.size) (hprevious : 1 ≤ previous.toNat) :
    ((ofParams p).next time previous).toNat = ideal p time.nanos previous.toNat := by
  have hquotient : wordMax / UInt64.size ≤ wordMax / time.nanos :=
    Nat.div_le_div_left hshort htime
  have hlargest : p.maximumDifficulty.toNat ≤ wordMax / UInt64.size :=
    Nat.le_of_lt_succ p.maximumDifficulty.toNat_lt
  rw [toNat_next_eq_min hvalid htime hprevious]
  exact Nat.min_eq_left (Nat.le_trans (ideal_le hvalid _ _)
    (Nat.le_trans hlargest (Nat.le_trans hquotient (Nat.le_max_right _ _))))

/-- **Retargeting follows its formula as far as the words reach.**  The difficulty is that of
the formula with a product that stays at the largest word; that is the formula's own, cut off at
the quotient of the largest word by the time of the search, but not below the lowest one.  So it is
the formula's exactly when that is no more.  It always is when the time has 64 bits, as that of
every block that was read has, or when the product does not pass the largest word. -/
theorem next_follows_ideal (hvalid : p.fault? = none) (htime : 0 < time.nanos)
    (hprevious : 1 ≤ previous.toNat) :
    ((ofParams p).next time previous).toNat =
        min (ideal p time.nanos previous.toNat)
          (max (lowest p previous.toNat) (wordMax / time.nanos)) ∧
      (((ofParams p).next time previous).toNat = ideal p time.nanos previous.toNat ↔
        ideal p time.nanos previous.toNat ≤
          max (lowest p previous.toNat) (wordMax / time.nanos)) ∧
      (time.nanos ≤ UInt64.size →
        ((ofParams p).next time previous).toNat = ideal p time.nanos previous.toNat) ∧
      (previous.toNat * p.targetBlockTime.nanos ≤ wordMax →
        ((ofParams p).next time previous).toNat = ideal p time.nanos previous.toNat) ∧
      (time = p.targetBlockTime → p.minimumDifficulty ≤ previous →
        previous ≤ p.maximumDifficulty →
        ((ofParams p).next time previous = previous ↔
          previous.toNat ≤ max (lowest p previous.toNat) (wordMax / time.nanos))) ∧
      (time = p.targetBlockTime → time.nanos ≤ UInt64.size → p.minimumDifficulty ≤ previous →
        previous ≤ p.maximumDifficulty → (ofParams p).next time previous = previous) ∧
      ((ofParams p).next time previous).toNat =
        clamp
          (clamp (saturatingMul previous.toNat p.targetBlockTime.nanos / time.nanos)
            (max 1 (previous.toNat / p.maxRetargetStep.toNat))
            (previous.toNat * p.maxRetargetStep.toNat))
          p.minimumDifficulty.toNat p.maximumDifficulty.toNat := by
  have hmin := toNat_next_eq_min hvalid htime hprevious
  refine ⟨hmin, ?_, fun hshort => toNat_next_of_short hvalid htime hshort hprevious, ?_, ?_, ?_,
    toNat_next_of_valid hvalid htime hprevious⟩
  · rw [hmin]
    exact min_eq_left_iff
  · intro hproduct
    rw [toNat_next_of_valid hvalid htime hprevious, saturatingMul, Nat.min_eq_left hproduct, ideal]
  · intro htarget hfloor hceiling
    rw [← UInt64.toNat_inj, hmin, htarget, ideal_on_target hvalid (htarget ▸ htime) hfloor hceiling]
    exact min_eq_left_iff
  · intro htarget hshort hfloor hceiling
    rw [← UInt64.toNat_inj, toNat_next_of_short hvalid htime hshort hprevious, htarget,
      ideal_on_target hvalid (htarget ▸ htime) hfloor hceiling]

end valid

/-- Parameters that aim for ten to the nineteen seconds between blocks. -/
def eons : Params := { targetBlockTime := ⟨10 ^ 28, by decide⟩ }

theorem valid_eons : eons.fault? = none := by
  decide +kernel

/-- A search as long as it should be, after which the difficulty is a quarter. -/
theorem next_follows_ideal_eons :
    eons.fault? = none ∧
      ((ofParams eons).next eons.targetBlockTime (2 ^ 40)).toNat = 2 ^ 38 := by
  have hfollows := @next_follows_ideal eons eons.targetBlockTime (2 ^ 40) valid_eons
    (by decide) (by decide)
  exact ⟨valid_eons, hfollows.1.trans (by decide)⟩

/-- The formula keeps the difficulty there. -/
theorem next_not_ideal_eons :
    ¬∀ (p : Params) (time : Duration) (previous : UInt64), p.fault? = none → 0 < time.nanos →
      1 ≤ previous.toNat →
      ((ofParams p).next time previous).toNat = ideal p time.nanos previous.toNat := by
  intro h
  have hquarter : ((ofParams eons).next eons.targetBlockTime (2 ^ 40)).toNat ≠
      ideal eons eons.targetBlockTime.nanos (2 ^ 40 : UInt64).toNat := by
    decide
  exact hquarter (h eons eons.targetBlockTime (2 ^ 40) valid_eons (by decide) (by decide))

end AttestedLedger.Retarget
