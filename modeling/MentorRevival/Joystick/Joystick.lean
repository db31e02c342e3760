import MentorRevival.Joystick.Adc
import MentorRevival.Lib.SignMagnitude

/-!
# The joystick

`joystick.c` turns a sample into a direction and a position. The scaling is written out twice,
in `joy_getValues` and in `joy_getValue`.
-/

namespace MentorRevival

open SignMagnitude

abbrev MAX_ADC_VAL : Int := 4096

/-- The macro has no parentheses; in every place that uses it the division binds first. -/
abbrev MIDPOINT : Int := MAX_ADC_VAL / 2

abbrev JOY_THRES : Int := 400

abbrev VALUE_SPAN : Int := MIDPOINT - JOY_THRES

abbrev JOY_FULL_SCALE : Int := 10000

abbrev NUM_JOYSTICKS : Nat := 4

structure JoyPos where
  dir : UInt8
  pos : UInt16
  deriving DecidableEq

/-- The entries behind the axes in `buff` are not touched. -/
def joyGetValues (currentPos : Nat → UInt16) (buff : Nat → JoyPos) : Checked (Nat → JoyPos) :=
  let rawVals : Fin NUM_JOYSTICKS → UInt16 := fun i => currentPos i
  (List.finRange NUM_JOYSTICKS).foldlM
    (fun buff i => do
      let dir : UInt8 := if MIDPOINT < (rawVals i).toNat then 1 else 0
      let offset ← Checked.int32 ((rawVals i).toNat - MIDPOINT)
      let mag ← Checked.uint16 offset.toInt.natAbs
      let pos ← (if JOY_THRES < mag.toNat then (do
          let mag ← Checked.uint16 (mag.toNat - JOY_THRES)
          let product ← Checked.int32 (mag.toNat * JOY_FULL_SCALE)
          Checked.uint16 (product.toInt.tdiv VALUE_SPAN))
        else pure 0)
      pure (Function.update buff i { dir := dir, pos := pos }))
    buff

def joyGetValue (axis : UInt8) (currentPos : Nat → UInt16) : Checked JoyPos := do
  let rawVal := currentPos axis.toNat
  let dir : UInt8 := if MIDPOINT < rawVal.toNat then 1 else 0
  let offset ← Checked.int32 (rawVal.toNat - MIDPOINT)
  let mag ← Checked.uint16 offset.toInt.natAbs
  let pos ← (if JOY_THRES < mag.toNat then (do
      let mag ← Checked.uint16 (mag.toNat - JOY_THRES)
      let product ← Checked.int32 (mag.toNat * JOY_FULL_SCALE)
      Checked.uint16 (product.toInt.tdiv VALUE_SPAN))
    else pure 0)
  pure { dir := dir, pos := pos }

def JoyPos.signed (p : JoyPos) : Int := SignMagnitude.signed (p.dir ≠ 0) p.pos.toNat

section Scaling

/-- The position of a sample as a signed fraction of `JOY_FULL_SCALE`. -/
def signedPosition (sample : Int) : Int := scale 10000 1648 (deadZone JOY_THRES (sample - MIDPOINT))

def joyPosition (sample : Nat) : JoyPos :=
  { dir := if MIDPOINT < sample then 1 else 0
    pos := UInt16.ofNat (signedPosition sample).natAbs }

theorem signedPosition_mono {x y : Int} (hxy : x ≤ y) :
    signedPosition x ≤ signedPosition y := by
  apply scale_mono (by decide)
  apply deadZone_mono
  exact Int.sub_le_sub_right hxy MIDPOINT

theorem signedPosition_mirror (k : Int) :
    signedPosition (MIDPOINT + k) = -signedPosition (MIDPOINT - k) := by
  have hleft : MIDPOINT + k - MIDPOINT = k := add_sub_cancel_left MIDPOINT k
  have hright : MIDPOINT - k - MIDPOINT = -k := sub_sub_cancel_left MIDPOINT k
  rw [signedPosition, signedPosition, hleft, hright, deadZone_neg, scale_neg, Int.neg_neg]

theorem natAbs_signedPosition (sample : Int) :
    (signedPosition sample).natAbs = 10000 * ((sample - 2048).natAbs - 400) / 1648 := by
  have hzone : |deadZone JOY_THRES (sample - 2048)| = max (|sample - 2048| - 400) 0 :=
    abs_deadZone (by decide) _
  have hmag : (deadZone JOY_THRES (sample - 2048)).natAbs = (sample - 2048).natAbs - 400 := by
    rw [Int.abs_eq_natAbs, Int.abs_eq_natAbs] at hzone
    omega
  rw [← hmag]
  exact natAbs_scale _

theorem signedPosition_eq_zero_iff (sample : Int) :
    signedPosition sample = 0 ↔ |sample - MIDPOINT| ≤ JOY_THRES := by
  have habs := natAbs_signedPosition sample
  change _ ↔ |sample - 2048| ≤ 400
  rw [Int.abs_eq_natAbs]
  omega

theorem natAbs_signedPosition_le {sample : Int} (h0 : 0 ≤ sample) (h : sample < 4096) :
    (signedPosition sample).natAbs ≤ 10000 := by
  have habs := natAbs_signedPosition sample
  omega

theorem joyPosition_signed {sample : Nat} (h : sample < 4096) :
    (joyPosition sample).signed = signedPosition sample := by
  have hcentre : signedPosition MIDPOINT = 0 := (signedPosition_eq_zero_iff _).mpr (by decide)
  have habs : (signedPosition sample).natAbs < 2 ^ 16 := by
    have hle := natAbs_signedPosition_le (Int.natCast_nonneg sample) (Int.ofNat_lt.mpr h)
    omega
  have hpos : (joyPosition sample).pos.toNat = (signedPosition sample).natAbs :=
    UInt16.toNat_ofNat_of_lt' habs
  rw [JoyPos.signed, hpos]
  by_cases hdir : MIDPOINT < sample
  · have hsign : 0 ≤ signedPosition sample := hcentre ▸ signedPosition_mono hdir.le
    rw [joyPosition, if_pos hdir]
    exact Int.natAbs_of_nonneg hsign
  · have hsign : signedPosition sample ≤ 0 := hcentre ▸ signedPosition_mono (not_lt.mp hdir)
    rw [joyPosition, if_neg hdir]
    exact (Int.eq_neg_natAbs_of_nonpos hsign).symm

end Scaling

section Exact

private theorem magnitude_exact {α : Type} {sample : UInt16} (h : sample.toNat < 4096)
    (next : UInt16 → Checked α) :
    ∃ mag : UInt16, mag.toNat = ((sample.toNat : Int) - 2048).natAbs ∧
      (do
        let offset ← Checked.int32 (sample.toNat - MIDPOINT)
        let mag ← Checked.uint16 offset.toInt.natAbs
        next mag) = next mag := by
  have hcentre : MIDPOINT = 2048 := rfl
  rcases Checked.int32_fits
    (x := sample.toNat - MIDPOINT) (by omega) (by omega) with ⟨offset, hoffset, hoffset_val⟩
  rcases Checked.uint16_fits
    (x := offset.toInt.natAbs) (by omega) (by omega) with ⟨mag, hmag, hmag_val⟩
  refine ⟨mag, by omega, ?_⟩
  rw [hoffset, Checked.bind_exact, hmag, Checked.bind_exact]

private theorem position_exact {sample mag : UInt16} (h : sample.toNat < 4096)
    (hmag : mag.toNat = ((sample.toNat : Int) - 2048).natAbs) :
    (if JOY_THRES < mag.toNat then (do
        let mag ← Checked.uint16 (mag.toNat - JOY_THRES)
        let product ← Checked.int32 (mag.toNat * JOY_FULL_SCALE)
        Checked.uint16 (product.toInt.tdiv VALUE_SPAN))
      else pure 0) = (⟨(joyPosition sample.toNat).pos, true⟩ : Checked UInt16) := by
  have hthres : JOY_THRES = 400 := rfl
  have hposition := natAbs_signedPosition sample.toNat
  by_cases hzone : JOY_THRES < mag.toNat
  · rcases Checked.uint16_fits
      (x := mag.toNat - JOY_THRES) (by omega) (by omega) with ⟨rest, hrest, hrest_val⟩
    have hscale : rest.toNat * JOY_FULL_SCALE = rest.toNat * 10000 := rfl
    rcases Checked.int32_fits
      (x := rest.toNat * JOY_FULL_SCALE) (by omega) (by omega)
      with ⟨product, hproduct, hproduct_val⟩
    have hdiv : product.toInt.tdiv VALUE_SPAN = product.toInt / 1648 :=
      Int.tdiv_eq_ediv_of_nonneg (by omega)
    rcases Checked.uint16_fits
      (x := product.toInt.tdiv VALUE_SPAN) (by omega) (by omega) with ⟨pos, hpos, hpos_val⟩
    have hfit : (signedPosition sample.toNat).natAbs < 2 ^ 16 := by omega
    have hval : pos = (joyPosition sample.toNat).pos := by
      apply UInt16.toNat_inj.mp
      rw [joyPosition, UInt16.toNat_ofNat_of_lt' hfit]
      omega
    rw [if_pos hzone, hrest, Checked.bind_exact, hproduct, Checked.bind_exact, hpos, hval]
  · have hrest : (signedPosition sample.toNat).natAbs = 0 := by omega
    rw [if_neg hzone, joyPosition, hrest]
    rfl

private theorem scaled_exact {α : Type} {sample : UInt16} (h : sample.toNat < 4096)
    (next : UInt16 → Checked α) :
    (do
      let offset ← Checked.int32 (sample.toNat - MIDPOINT)
      let mag ← Checked.uint16 offset.toInt.natAbs
      let pos ← (if JOY_THRES < mag.toNat then (do
          let mag ← Checked.uint16 (mag.toNat - JOY_THRES)
          let product ← Checked.int32 (mag.toNat * JOY_FULL_SCALE)
          Checked.uint16 (product.toInt.tdiv VALUE_SPAN))
        else pure 0)
      next pos) = next (joyPosition sample.toNat).pos := by
  rcases magnitude_exact h fun mag =>
    (if JOY_THRES < mag.toNat then (do
        let mag ← Checked.uint16 (mag.toNat - JOY_THRES)
        let product ← Checked.int32 (mag.toNat * JOY_FULL_SCALE)
        Checked.uint16 (product.toInt.tdiv VALUE_SPAN))
      else pure 0) >>= next with ⟨mag, hmag, hstart⟩
  rw [hstart, position_exact h hmag, Checked.bind_exact]

theorem joyGetValue_eq {axis : UInt8} {currentPos : Nat → UInt16}
    (h : (currentPos axis.toNat).toNat < 4096) :
    joyGetValue axis currentPos = ⟨joyPosition (currentPos axis.toNat).toNat, true⟩ := by
  rw [joyGetValue]
  exact scaled_exact h _

theorem joyGetValues_eq {currentPos : Nat → UInt16} (buff : Nat → JoyPos)
    (h : ∀ i < NUM_JOYSTICKS, (currentPos i).toNat < 4096) :
    joyGetValues currentPos buff =
      ⟨Checked.fill (fun i : Fin NUM_JOYSTICKS => joyPosition (currentPos i).toNat) buff,
        true⟩ := by
  apply Checked.foldlM_update
  intro buff i
  exact scaled_exact (h i i.isLt) _

end Exact

section Pipeline

def channel (i : Fin NUM_JOYSTICKS) : Fin ADC_NUM_CHANNELS := i.castLE (by decide)

/-- `joy_getValues` after the callback. -/
def joyValues (rawSamples : RawSamples) (currentPos : Nat → UInt16) (buff : Nat → JoyPos) :
    Checked (Nat → JoyPos) := do
  let currentPos ← adccallback rawSamples currentPos
  joyGetValues currentPos buff

def signedValue (rawSamples : RawSamples) (currentPos : Nat → UInt16) (buff : Nat → JoyPos)
    (i : Fin NUM_JOYSTICKS) : Int :=
  ((joyValues rawSamples currentPos buff).val i).signed

variable {A B : RawSamples}

private theorem currentPos_toNat (hA : ∀ k, (A k).toNat < 4096) (currentPos : Nat → UInt16)
    (i : Fin NUM_JOYSTICKS) :
    (Checked.fill (averages A) currentPos i).toNat = average A (channel i) := by
  have hfill : Checked.fill (averages A) currentPos i = averages A (channel i) :=
    Checked.fill_val (averages A) currentPos (channel i)
  rw [hfill, averages_toNat hA]

theorem joyValues_eq (hA : ∀ k, (A k).toNat < 4096) (currentPos : Nat → UInt16)
    (buff : Nat → JoyPos) :
    joyValues A currentPos buff =
      ⟨Checked.fill (fun i => joyPosition (average A (channel i))) buff, true⟩ := by
  have hlt : ∀ i < NUM_JOYSTICKS, (Checked.fill (averages A) currentPos i).toNat < 4096 := by
    intro i hi
    rw [currentPos_toNat hA currentPos ⟨i, hi⟩]
    exact average_lt hA _
  rw [joyValues, adccallback_eq, Checked.bind_exact, joyGetValues_eq buff hlt]
  simp only [currentPos_toNat hA]

theorem joyValues_val (hA : ∀ k, (A k).toNat < 4096) (currentPos : Nat → UInt16)
    (buff : Nat → JoyPos) (i : Fin NUM_JOYSTICKS) :
    (joyValues A currentPos buff).val i = joyPosition (average A (channel i)) := by
  rw [joyValues_eq hA]
  exact Checked.fill_val (fun i => joyPosition (average A (channel i))) buff i

theorem signedValue_eq (hA : ∀ k, (A k).toNat < 4096) (currentPos : Nat → UInt16)
    (buff : Nat → JoyPos) (i : Fin NUM_JOYSTICKS) :
    signedValue A currentPos buff i = signedPosition (average A (channel i)) := by
  rw [signedValue, joyValues_val hA]
  exact joyPosition_signed (average_lt hA _)

/-- The signed position follows the samples of its own channel: it keeps their order and is odd
around the midpoint, up to rounding towards zero. -/
theorem joystick_pipeline (i : Fin NUM_JOYSTICKS) (hA : ∀ k, (A k).toNat < 4096)
    (hB : ∀ k, (B k).toNat < 4096) (posA posB : Nat → UInt16) (buffA buffB : Nat → JoyPos) :
    ((∀ j, A (sampleIndex j (channel i)) ≤ B (sampleIndex j (channel i))) →
      signedValue A posA buffA i ≤ signedValue B posB buffB i) ∧
    |signedValue A posA buffA i| ≤ JOY_FULL_SCALE ∧
    (signedValue A posA buffA i = 0 ↔ |(average A (channel i) : Int) - 2048| ≤ JOY_THRES) ∧
    (∀ k : Nat, k ≤ 2047 → average A (channel i) = 2048 + k →
      average B (channel i) = 2048 - k →
      signedValue A posA buffA i = -signedValue B posB buffB i) ∧
    (joyValues A posA buffA).exact = true ∧
    (do
      let currentPos ← adccallback A posA
      joyGetValue (UInt8.ofNat i) currentPos) =
      ⟨(joyValues A posA buffA).val i, true⟩ := by
  rw [signedValue_eq hA, signedValue_eq hB, joyValues_val hA, joyValues_eq hA]
  refine ⟨?_, ?_, signedPosition_eq_zero_iff _, ?_, rfl, ?_⟩
  · intro hle
    exact signedPosition_mono (Int.ofNat_le.mpr (average_mono hle))
  · have hlt := Int.ofNat_lt.mpr (average_lt hA (channel i))
    rw [Int.abs_eq_natAbs]
    exact Int.ofNat_le.mpr (natAbs_signedPosition_le (Int.natCast_nonneg _) hlt)
  · intro k hk hleft hright
    have hleft' : (average A (channel i) : Int) = MIDPOINT + k := by
      rw [hleft]
      exact Int.natCast_add 2048 k
    have hright' : (average B (channel i) : Int) = MIDPOINT - k := by
      rw [hright]
      exact Int.ofNat_sub (hk.trans (by decide))
    rw [hleft', hright', signedPosition_mirror]
  · have haxis : (UInt8.ofNat i).toNat = i :=
      UInt8.toNat_ofNat_of_lt' (i.isLt.trans (by decide))
    have hval := currentPos_toNat hA posA i
    rw [adccallback_eq, Checked.bind_exact, joyGetValue_eq, haxis, hval]
    rw [haxis, hval]
    exact average_lt hA _

theorem joystick_pipeline_mirror :
    signedValue (fun _ => 3000) (fun _ => 0) (fun _ => ⟨0, 0⟩) 2 =
      -signedValue (fun _ => 1096) (fun _ => 0) (fun _ => ⟨0, 0⟩) 2 :=
  (joystick_pipeline 2 (fun _ => by decide) (fun _ => by decide) _ _ _ _).2.2.2.1 952
    (by decide) rfl rfl

end Pipeline

end MentorRevival
