import Mathlib.Data.FinEnum
import Mathlib.Data.Nat.ModEq
import Mathlib.Data.Nat.Prime.Basic
import MiningGame.Region.Prospecting

/-!
# Draws do not collapse

Multiplying words by an odd word and folding a word onto a shifted copy of itself lose nothing. So
the word that is blended from seed, region and height determines each of the three once the other
two are known, and scrambling only forgets whether a word was zero or the word that stands in for
it: two draws from inputs that differ in one place coincide for no other reason
(`Mixer.draw_spreads`).
-/

namespace MiningGame.Mixer

/-- One of two words is zero and the other is the word that stands in for it. -/
def Swapped (w w' : UInt64) : Prop :=
  w = 0 ∧ w' = 0xdeadbeefcafebabe ∨ w = 0xdeadbeefcafebabe ∧ w' = 0

/-- The inputs of two draws differ in exactly one place. -/
inductive Beside (seed region height : UInt64) : UInt64 → UInt64 → UInt64 → Prop
  | seed {seed' : UInt64} (ne : seed ≠ seed') : Beside seed region height seed' region height
  | region {region' : UInt64} (ne : region ≠ region') :
      Beside seed region height seed region' height
  | height {height' : UInt64} (ne : height ≠ height') :
      Beside seed region height seed region height'

variable {seed region height seed' region' height' w w' : UInt64}

/-! ## Folding and multiplying lose nothing -/

theorem coprime_of_odd {n : Nat} (h : Odd n) : Nat.Coprime (2 ^ 64) n :=
  Nat.Coprime.pow_left 64 (Nat.coprime_two_left.2 h)

theorem mul_odd_injective {c : UInt64} (hc : Odd c.toNat) :
    Function.Injective fun w : UInt64 ↦ w * c := by
  intro a b h
  have hmod : a.toNat * c.toNat ≡ b.toNat * c.toNat [MOD 2 ^ 64] := by
    have hvalues := congrArg UInt64.toNat h
    rwa [UInt64.toNat_mul, UInt64.toNat_mul] at hvalues
  have hsame := Nat.ModEq.cancel_right_of_coprime (coprime_of_odd hc) hmod
  exact UInt64.toNat_inj.1 (hsame.eq_of_lt_of_lt a.toNat_lt b.toNat_lt)

/-- A word can be recovered from what remains when a part of it is folded onto it, if the part
respects the folding and is never the whole of a word other than zero. -/
theorem fold_injective {part : UInt64 → UInt64} (hpart : ∀ a b, part (a ^^^ b) = part a ^^^ part b)
    (hwhole : ∀ w, part w = w → w = 0) : Function.Injective fun w ↦ w ^^^ part w := by
  intro a b h
  apply UInt64.xor_eq_zero_iff.1
  apply hwhole
  rw [hpart, ← UInt64.xor_eq_zero_iff]
  calc part a ^^^ part b ^^^ (a ^^^ b)
    _ = (a ^^^ part a) ^^^ (b ^^^ part b) := by ac_rfl
    _ = 0 := UInt64.xor_eq_zero_iff.2 h

/-- A word that is `2 ^ k` times itself is zero, because `2 ^ k - 1` is odd. -/
theorem eq_zero_of_shiftLeft_eq {n : UInt64} (hn : n.toNat % 64 ≠ 0) (h : w <<< n = w) : w = 0 := by
  have hvalue := congrArg UInt64.toNat h
  rw [UInt64.toNat_shiftLeft, Nat.shiftLeft_eq] at hvalue
  have hmod : w.toNat * 2 ^ (n.toNat % 64) ≡ w.toNat [MOD 2 ^ 64] := by
    rw [Nat.ModEq, hvalue, Nat.mod_eq_of_lt w.toNat_lt]
  have hdvd : 2 ^ 64 ∣ w.toNat * (2 ^ (n.toNat % 64) - 1) := by
    rw [Nat.mul_sub_one]
    exact (Nat.modEq_iff_dvd' (Nat.le_mul_of_pos_right _ (Nat.two_pow_pos _))).1 hmod.symm
  have hodd : Odd (2 ^ (n.toNat % 64) - 1) :=
    Nat.Even.sub_odd Nat.one_le_two_pow (Nat.even_pow.2 ⟨even_two, hn⟩) odd_one
  have hmultiple : 2 ^ 64 ∣ w.toNat := (coprime_of_odd hodd).dvd_of_dvd_mul_right hdvd
  exact Word.eq_zero_of_toNat (Nat.eq_zero_of_dvd_of_lt hmultiple w.toNat_lt)

/-- A word that is its own quotient is zero. -/
theorem eq_zero_of_shiftRight_eq {n : UInt64} (hn : n.toNat % 64 ≠ 0) (h : w >>> n = w) :
    w = 0 := by
  by_contra hw
  have hvalue := congrArg UInt64.toNat h
  rw [UInt64.toNat_shiftRight, Nat.shiftRight_eq_div_pow] at hvalue
  have hpos : 0 < w.toNat := Nat.pos_of_ne_zero fun hzero ↦ hw (Word.eq_zero_of_toNat hzero)
  exact (Nat.div_lt_self hpos (Nat.one_lt_two_pow hn)).ne hvalue

theorem foldUp_injective {n : UInt64} (hn : n.toNat % 64 ≠ 0) : Function.Injective (foldUp n) :=
  fold_injective (fun _ _ ↦ UInt64.shiftLeft_xor) fun _ ↦ eq_zero_of_shiftLeft_eq hn

theorem foldDown_injective {n : UInt64} (hn : n.toNat % 64 ≠ 0) :
    Function.Injective (foldDown n) :=
  fold_injective (fun _ _ ↦ UInt64.shiftRight_xor) fun _ ↦ eq_zero_of_shiftRight_eq hn

/-! ## Blending and scrambling -/

theorem shifts_injective : Function.Injective fun w ↦ foldUp 17 (foldDown 7 (foldUp 13 w)) :=
  (foldUp_injective (by decide)).comp
    ((foldDown_injective (by decide)).comp (foldUp_injective (by decide)))

theorem scramble_ne_zero (w : UInt64) : scramble w ≠ 0 := by
  intro h
  have hword : (if w = 0 then 0xdeadbeefcafebabe else w) = 0 := shifts_injective h
  split at hword
  · exact absurd hword (by decide)
  · next hw => exact hw hword

theorem scramble_eq_iff : scramble w = scramble w' ↔ w = w' ∨ Swapped w w' := by
  have hscramble : scramble w = scramble w' ↔
      (if w = 0 then 0xdeadbeefcafebabe else w) = if w' = 0 then 0xdeadbeefcafebabe else w' :=
    shifts_injective.eq_iff
  rw [hscramble, Swapped]
  split <;> split <;> simp_all [eq_comm]

theorem blend_seed_inj : blend seed region height = blend seed' region height ↔ seed = seed' := by
  rw [blend, blend, UInt64.add_left_inj, UInt64.add_left_inj]

theorem blend_region_inj :
    blend seed region height = blend seed region' height ↔ region = region' := by
  rw [blend, blend, UInt64.add_left_inj, UInt64.add_right_inj]
  exact (mul_odd_injective (c := 0x9e3779b97f4a7c15) (by decide)).eq_iff

theorem blend_height_inj :
    blend seed region height = blend seed region height' ↔ height = height' := by
  rw [blend, blend, UInt64.add_right_inj]
  exact (mul_odd_injective (c := 0x517cc1b727220a95) (by decide)).eq_iff

/-- Every word is blended from some region, whatever the seed and the height. -/
theorem exists_blend (seed height w : UInt64) : ∃ region, blend seed region height = w := by
  have hinjective : Function.Injective fun region ↦ blend seed region height :=
    fun _ _ ↦ blend_region_inj.1
  exact Finite.injective_iff_surjective.1 hinjective w

/-! ## Draws -/

theorem Beside.blend_ne (h : Beside seed region height seed' region' height') :
    blend seed region height ≠ blend seed' region' height' := by
  cases h with
  | seed ne => exact mt blend_seed_inj.1 ne
  | region ne => exact mt blend_region_inj.1 ne
  | height ne => exact mt blend_height_inj.1 ne

theorem Beside.draw_eq_iff (h : Beside seed region height seed' region' height') :
    draw seed region height = draw seed' region' height' ↔
      Swapped (blend seed region height) (blend seed' region' height') :=
  scramble_eq_iff.trans (or_iff_right h.blend_ne)

/-- At a height of a world there is one pair of regions that draw the same. -/
theorem exists_pair (seed height : UInt64) : ∃ a b, a ≠ b ∧ ∀ region region', region ≠ region' →
    (draw seed region height = draw seed region' height ↔
      region = a ∧ region' = b ∨ region = b ∧ region' = a) := by
  obtain ⟨a, ha⟩ := exists_blend seed height 0
  obtain ⟨b, hb⟩ := exists_blend seed height 0xdeadbeefcafebabe
  have hab : a ≠ b := by
    rintro rfl
    exact absurd (ha.symm.trans hb) (by decide)
  refine ⟨a, b, hab, fun region region' ne ↦ ?_⟩
  rw [(Beside.region ne).draw_eq_iff, Swapped, ← ha, ← hb]
  simp only [blend_region_inj]

/-- No draw is zero. Draws from inputs that differ in one place coincide exactly where one of the
blended words is zero and the other is its stand-in, so at any height of any world there is just one
pair of regions that draw the same word. -/
theorem draw_spreads :
    (∀ seed region height, draw seed region height ≠ 0) ∧
    (∀ seed region height seed' region' height',
      Beside seed region height seed' region' height' →
        (draw seed region height = draw seed' region' height' ↔
          Swapped (blend seed region height) (blend seed' region' height'))) ∧
    ∀ seed height, ∃ a b, a ≠ b ∧ ∀ region region', region ≠ region' →
      (draw seed region height = draw seed region' height ↔
        region = a ∧ region' = b ∨ region = b ∧ region' = a) :=
  ⟨fun _ _ _ ↦ scramble_ne_zero _, fun _ _ _ _ _ _ ↦ Beside.draw_eq_iff, exists_pair⟩

/-- The two regions that draw the same at height zero of the world of seed zero. -/
example : draw 0 0 0 = draw 0 304112441399695686 0 := by decide

end MiningGame.Mixer
