import Mathlib
import RunoffAudit.Decimal.Read

/-! # Doubles of positive integers are positive

A double whose sign is plus and whose exponent field is not zero is no number that is zero or less. The double
nearest to a positive integer is of this kind, as its exponent lies far above the least.
-/
namespace RunoffAudit.Decimal
open Float.Model Float.Model.UnpackedFloat

variable {b : BitVec Format.binary64.numBits} {n : Nat}

theorem unpack_not_le_zero (hsign : Sign.ofBitVec (unpackSign b) = .positive)
    (hexponent : unpackExponent b ≠ 0#11) :
    (UnpackedFloat.unpack .binary64 b).le (.zero .positive) = false := by
  rw [UnpackedFloat.unpack]
  simp only [hsign]
  rw [if_neg hexponent]
  split
  · split <;> rfl
  · rfl

/-- Bits that are no number are packed as one pattern, all others as they are. -/
theorem unpack_pack_unpack_not_le_zero (hsign : Sign.ofBitVec (unpackSign b) = .positive)
    (hexponent : unpackExponent b ≠ 0#11) :
    (UnpackedFloat.unpack .binary64 (UnpackedFloat.pack .binary64 (UnpackedFloat.unpack .binary64 b))).le
      (.zero .positive) = false := by
  rw [pack_unpack b]
  split
  · rw [unpack_packedNaN]
    rfl
  · exact unpack_not_le_zero hsign hexponent

theorem ofBits_not_le_zero {bits : UInt64} (hlow : 2 ^ 52 ≤ bits.toNat) (hhigh : bits.toNat < 2 ^ 63) :
    ¬ Float.ofBits bits ≤ 0 := by
  have hsign : (@unpackSign .binary64 bits.toBitVec).toNat = bits.toNat / 2 ^ 63 % 2 := by
    simp [unpackSign,Nat.shiftRight_eq_div_pow]
  have hfield : (@unpackExponent .binary64 bits.toBitVec).toNat = bits.toNat / 2 ^ 52 % 2048 := by
    simp [unpackExponent,Nat.shiftRight_eq_div_pow]
  have hpositive : @unpackSign .binary64 bits.toBitVec = 0#1 := by
    apply BitVec.eq_of_toNat_eq
    rw [hsign,BitVec.toNat_zero]
    omega
  have hexponent : @unpackExponent .binary64 bits.toBitVec ≠ 0#11 := by
    intro hzero
    rw [hzero,BitVec.toNat_zero] at hfield
    omega
  intro hle
  have hle : (Float.ofBits bits).toModel.unpack.le (0 : Float).toModel.unpack = true := of_decide_eq_true hle
  have hnot : (Float.ofBits bits).toModel.unpack.le (0 : Float).toModel.unpack = false :=
    unpack_pack_unpack_not_le_zero (by rw [hpositive]; rfl) hexponent
  rw [hnot] at hle
  cases hle

/-! ## The nearest double -/

theorem hiddenBit_eq : hiddenBit = 2 ^ 52 := rfl

theorem Ratio.round_le_floor_succ (r : Ratio) : r.round ≤ r.floor + 1 := by
  unfold Ratio.round Ratio.floor
  dsimp only
  split
  · omega
  · split
    · omega
    · omega

/-- Of a positive integer the exponent leaves no more than 53 bits. -/
theorem floor_shift_lt (n : Nat) : ((⟨n,1⟩ : Ratio).shift (-(n.log2 - 52))).floor < 2 * hiddenBit := by
  have hlog : n < 2 ^ (n.log2 + 1) := Nat.lt_log2_self
  rw [hiddenBit_eq]
  unfold Ratio.shift Ratio.floor
  split
  case isTrue h =>
    have hpow : (2 : Nat) ^ (n.log2 + 1) * 2 ^ (52 - n.log2) = 2 * 2 ^ 52 := by
      rw [← Nat.pow_add,← Nat.pow_succ']
      congr 1
      omega
    have hroom : (-((n.log2 : Int) - 52)).toNat = 52 - n.log2 := by omega
    rw [Nat.div_one,Nat.shiftLeft_eq,hroom,← hpow]
    exact Nat.mul_lt_mul_of_pos_right hlog (Nat.two_pow_pos _)
  case isFalse h =>
    have hpow : (2 : Nat) * 2 ^ 52 * 2 ^ (n.log2 - 52) = 2 ^ (n.log2 + 1) := by
      rw [← Nat.pow_succ',← Nat.pow_add]
      congr 1
      omega
    have hroom : (-(-((n.log2 : Int) - 52))).toNat = n.log2 - 52 := by omega
    rw [Nat.shiftLeft_eq,Nat.one_mul,hroom,Nat.div_lt_iff_lt_mul (Nat.two_pow_pos _),hpow]
    exact hlog

theorem exponent_of_integer (n : Nat) : -53 ≤ (⟨n,1⟩ : Ratio).exponent ∧
    ((⟨n,1⟩ : Ratio).shift (-(⟨n,1⟩ : Ratio).exponent)).floor < 2 * hiddenBit := by
  have hguess : ((n.log2 : Int) - (1 : Nat).log2 - 53) = n.log2 - 53 := by
    rw [show (1 : Nat).log2 = 0 from rfl]
    omega
  have hexponent : (⟨n,1⟩ : Ratio).exponent =
      if 2 * hiddenBit ≤ ((⟨n,1⟩ : Ratio).shift (-(n.log2 - 53))).floor then (n.log2 : Int) - 52 else n.log2 - 53 := by
    unfold Ratio.exponent
    dsimp only
    rw [hguess,leastExponent]
    split <;> omega
  rw [hexponent]
  split
  case isTrue h => exact ⟨by omega,floor_shift_lt n⟩
  case isFalse h => exact ⟨by omega,Nat.lt_of_not_le h⟩

theorem ofMagnitude_not_le_zero {magnitude : Nat} (hlow : hiddenBit ≤ magnitude)
    (hhigh : magnitude < 2048 * hiddenBit) : ¬ Double.toFloat.ofBits false magnitude ≤ 0 := by
  rw [hiddenBit_eq] at hlow hhigh
  unfold Double.toFloat.ofBits
  apply ofBits_not_le_zero
  · rw [UInt64.toNat_ofNat']
    simp
    omega
  · rw [UInt64.toNat_ofNat']
    simp
    omega

/-- The double nearest to a positive integer is not zero or less. -/
theorem nearest_not_le_zero (hn : n ≠ 0) : ¬ (Double.nearest false ⟨n,1⟩).toFloat ≤ 0 := by
  obtain ⟨hlow,hfloor⟩ := exponent_of_integer n
  have hround := ((⟨n,1⟩ : Ratio).shift (-(⟨n,1⟩ : Ratio).exponent)).round_le_floor_succ
  rw [Double.nearest,if_neg hn]
  split
  case isTrue h => exact ofMagnitude_not_le_zero (by decide) (by decide)
  case isFalse h =>
    rw [greatestExponent] at h
    have hplace : 1021 ≤ ((⟨n,1⟩ : Ratio).exponent - leastExponent).toNat ∧
        ((⟨n,1⟩ : Ratio).exponent - leastExponent).toNat ≤ 2045 := by
      rw [leastExponent]
      omega
    rw [hiddenBit_eq] at hfloor
    apply ofMagnitude_not_le_zero
    · rw [Double.magnitudeBits,hiddenBit_eq]
      omega
    · rw [Double.magnitudeBits,hiddenBit_eq]
      omega

/-- An integer limit that is positive stays so as a double. -/
theorem ofInt?_not_le_zero {k : Int} {s : Float} (hk : 0 < k) (h : ofInt? k = some s) : ¬ s ≤ 0 := by
  unfold ofInt? at h
  split at h
  · have hneg : decide (k < 0) = false := by simpa using Int.le_of_lt hk
    rw [hneg] at h
    rw [← Option.some.inj h]
    exact nearest_not_le_zero (by omega)
  · cases h

end RunoffAudit.Decimal
