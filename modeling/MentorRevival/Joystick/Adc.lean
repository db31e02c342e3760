import MentorRevival.Lib.Checked
import MentorRevival.Motor.Board

/-!
# Sampling

The streaming callback of `adcThread.c`. The samples of one conversion of all channels lie next
to each other in `rawSamples`; the callback averages each channel over the conversions.
-/

namespace MentorRevival

abbrev ADC_BUFF_DEPTH : Nat := 2

abbrev RawSamples : Type := Fin (ADC_NUM_CHANNELS * ADC_BUFF_DEPTH) → UInt16

/-- Where the sample of channel `i` in conversion `j` lies. -/
def sampleIndex (j : Fin ADC_BUFF_DEPTH) (i : Fin ADC_NUM_CHANNELS) :
    Fin (ADC_NUM_CHANNELS * ADC_BUFF_DEPTH) :=
  ⟨j * ADC_NUM_CHANNELS + i, by
    have hj : (j : Nat) < 2 := j.isLt
    have hi : (i : Nat) < 6 := i.isLt
    change (j : Nat) * 6 + i < 12
    omega⟩

def adcAverage (rawSamples : RawSamples) (i : Fin ADC_NUM_CHANNELS) : Checked UInt16 := do
  let sum ← (List.finRange ADC_BUFF_DEPTH).foldlM
    (fun (sum : UInt32) j => Checked.uint32 (sum.toNat + (rawSamples (sampleIndex j i)).toNat)) 0
  let res := sum / UInt32.ofNat ADC_BUFF_DEPTH
  Checked.uint16 res.toNat

def adccallback (rawSamples : RawSamples) (currentPos : Nat → UInt16) :
    Checked (Nat → UInt16) :=
  (List.finRange ADC_NUM_CHANNELS).foldlM
    (fun currentPos i => do
      let res ← adcAverage rawSamples i
      pure (Function.update currentPos i res))
    currentPos

section Average

/-- The floored average of the samples of a channel. -/
def average (rawSamples : RawSamples) (i : Fin ADC_NUM_CHANNELS) : Nat :=
  ((rawSamples (sampleIndex 0 i)).toNat + (rawSamples (sampleIndex 1 i)).toNat) / 2

theorem average_mono {A B : RawSamples} {i : Fin ADC_NUM_CHANNELS}
    (h : ∀ j, A (sampleIndex j i) ≤ B (sampleIndex j i)) : average A i ≤ average B i :=
  Nat.div_le_div_right (Nat.add_le_add (h 0) (h 1))

theorem average_lt {A : RawSamples} (h : ∀ k, (A k).toNat < 4096) (i : Fin ADC_NUM_CHANNELS) :
    average A i < 4096 := by
  have h0 := h (sampleIndex 0 i)
  have h1 := h (sampleIndex 1 i)
  unfold average
  omega

/-- Sums and averages of 16-bit samples fit their types whatever the samples are. -/
theorem adcAverage_eq (rawSamples : RawSamples) (i : Fin ADC_NUM_CHANNELS) :
    adcAverage rawSamples i = ⟨UInt16.ofNat (average rawSamples i), true⟩ := by
  have h0 := (rawSamples (sampleIndex 0 i)).toNat_lt
  have h1 := (rawSamples (sampleIndex 1 i)).toNat_lt
  have hzero : (0 : UInt32).toNat = 0 := rfl
  rcases Checked.uint32_fits
    (x := (0 : UInt32).toNat + (rawSamples (sampleIndex 0 i)).toNat) (by omega) (by omega)
    with ⟨first, hfirst, hfirst_val⟩
  rcases Checked.uint32_fits
    (x := first.toNat + (rawSamples (sampleIndex 1 i)).toNat) (by omega) (by omega)
    with ⟨sum, hsum, hsum_val⟩
  have hdiv : (sum / UInt32.ofNat ADC_BUFF_DEPTH).toNat = average rawSamples i := by
    rw [UInt32.toNat_div, average]
    change sum.toNat / 2 = _
    omega
  have hlt : average rawSamples i < 2 ^ 16 := by
    unfold average
    omega
  rcases Checked.uint16_fits
    (x := (sum / UInt32.ofNat ADC_BUFF_DEPTH).toNat) (by omega) (by omega)
    with ⟨res, hres, hres_val⟩
  have hrange : List.finRange ADC_BUFF_DEPTH = [0, 1] := rfl
  have hloop : adcAverage rawSamples i =
      Checked.uint16 (sum / UInt32.ofNat ADC_BUFF_DEPTH).toNat := by
    rw [adcAverage, hrange, List.foldlM_cons, hfirst, Checked.bind_exact, List.foldlM_cons, hsum,
      Checked.bind_exact, List.foldlM_nil]
    exact Checked.bind_exact sum _
  have hval : res = UInt16.ofNat (average rawSamples i) := by
    apply UInt16.toNat_inj.mp
    rw [UInt16.toNat_ofNat_of_lt' hlt]
    omega
  rw [hloop, hres, hval]

end Average

section Callback

def averages (rawSamples : RawSamples) (i : Fin ADC_NUM_CHANNELS) : UInt16 :=
  UInt16.ofNat (average rawSamples i)

theorem averages_toNat {A : RawSamples} (h : ∀ k, (A k).toNat < 4096) (i : Fin ADC_NUM_CHANNELS) :
    (averages A i).toNat = average A i := by
  have hlt : average A i < 2 ^ 16 := (average_lt h i).trans (by decide)
  exact UInt16.toNat_ofNat_of_lt' hlt

theorem adccallback_eq (rawSamples : RawSamples) (currentPos : Nat → UInt16) :
    adccallback rawSamples currentPos = ⟨Checked.fill (averages rawSamples) currentPos, true⟩ := by
  apply Checked.foldlM_update
  intro currentPos i
  rw [adcAverage_eq]
  rfl

end Callback

end MentorRevival
