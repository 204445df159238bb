import Mathlib

/-! # Doubles count exactly below `2 ^ 53`

A whole number below `2 ^ 53` is a double: shifted to the left until its highest digit stands at the hidden bit,
it has no digit that a double drops. Sums, differences and products of such numbers are rounded from binary
fractions whose dropped digits are all zero. So they are exact as long as they stay below the bound.
-/
namespace RunoffAudit.Binary64
open Float.Model Float.Model.UnpackedFloat

variable {a b i j m : Nat}

theorem log2_mul_two_pow (hm : m ≠ 0) (j : Nat) : (m * 2 ^ j).log2 = m.log2 + j := by
  induction j with
  | zero => rw [Nat.pow_zero,Nat.mul_one,Nat.add_zero]
  | succ j ih =>
    have hne : m * 2 ^ j ≠ 0 := Nat.mul_ne_zero hm (Nat.two_pow_pos j).ne'
    rw [Nat.pow_succ',Nat.mul_left_comm,Nat.log2_two_mul hne,ih,Nat.add_assoc]

/-- The binary places behind the point for which the double of a whole number has room. -/
def places (m : Nat) : Nat := 52 - m.log2

theorem log2_add_places (hm : m ≠ 0) (hsmall : m < 2 ^ 53) : m.log2 + places m = 52 := by
  have hlog := (Nat.log2_lt hm).mpr hsmall
  rw [places]
  omega

def whole (m : Nat) : UnpackedFloat :=
  if h : m = 0 then .zero .positive
  else .finite .positive (m * 2 ^ places m) (-(places m : Int)) (Nat.mul_pos (Nat.pos_of_ne_zero h) (Nat.two_pow_pos _))

theorem whole_of_ne_zero (hm : m ≠ 0) : whole m = .finite .positive (m * 2 ^ places m) (-(places m : Int))
    (Nat.mul_pos (Nat.pos_of_ne_zero hm) (Nat.two_pow_pos _)) := dif_neg hm

/-! ## Rounding without loss -/

/-- Digits that are all zero leave nothing behind when they are shifted out. -/
theorem shiftRight_exact (m k : Nat) : (⟨m * 2 ^ k,false,false⟩ : ExtendedMantissa) >>> k = ⟨m,false,false⟩ := by
  induction k generalizing m with
  | zero =>
    rw [Nat.pow_zero,Nat.mul_one]
    rfl
  | succ k ih =>
    have hdouble : (⟨m * 2 ^ (k + 1),false,false⟩ : ExtendedMantissa) >>> k = ⟨m * 2,false,false⟩ := by
      rw [Nat.pow_succ',← Nat.mul_assoc]
      exact ih (m * 2)
    show ((⟨m * 2 ^ (k + 1),false,false⟩ : ExtendedMantissa) >>> k).shiftRightOne = ⟨m,false,false⟩
    rw [hdouble]
    simp [ExtendedMantissa.shiftRightOne]

theorem targetExponent_eq (hm : m ≠ 0) (hsmall : m < 2 ^ 53) (j : Nat) :
    Format.binary64.targetExponent (totalExponent (m * 2 ^ j) (-(j : Int))) = -(places m : Int) := by
  have hplaces := log2_add_places hm hsmall
  have hleast : Format.binary64.minExponent = -1074 := rfl
  have hbits : Format.binary64.mantissaBits = 53 := rfl
  rw [Format.targetExponent,totalExponent,log2_mul_two_pow hm,hleast,hbits]
  omega

/-- A whole number written with more places than a double has room for is cut to these. -/
theorem shiftToTargetExponent_exact (hm : m ≠ 0) (hsmall : m < 2 ^ 53) (hj : places m ≤ j) :
    shiftToTargetExponent .binary64 (m * 2 ^ j) (-(j : Int)) .exact =
      (⟨m * 2 ^ places m,false,false⟩,-(places m : Int)) := by
  obtain ⟨k,rfl⟩ := Nat.exists_eq_add_of_le hj
  have hshift : (-(places m : Int) - -((places m + k : Nat) : Int)).toNat = k := by omega
  have hexponent : -((places m + k : Nat) : Int) + (k : Int) = -(places m : Int) := by omega
  rw [shiftToTargetExponent,targetExponent_eq hm hsmall,shiftToExponent,hshift,hexponent,Nat.pow_add,← Nat.mul_assoc]
  exact congrArg (·,_) (shiftRight_exact _ k)

theorem roundWithAccuracy_exact (hm : m ≠ 0) (hsmall : m < 2 ^ 53) (hj : places m ≤ j) :
    roundWithAccuracy .binary64 .positive (m * 2 ^ j) (-(j : Int)) .exact = whole m := by
  have hne : m * 2 ^ places m ≠ 0 := Nat.mul_ne_zero hm (Nat.two_pow_pos _).ne'
  rw [roundWithAccuracy,shiftToTargetExponent_exact hm hsmall hj]
  -- the rounded mantissa is shifted once more, in case that rounding has added a digit
  show (let (em,e) := shiftToTargetExponent .binary64 (m * 2 ^ places m) (-(places m : Int)) .exact
    if h : em.mantissa = 0 then UnpackedFloat.zero .positive
    else .finite .positive em.mantissa e (Nat.pos_of_ne_zero h)) = whole m
  rw [shiftToTargetExponent_exact hm hsmall (Nat.le_refl _)]
  simp only [whole,hm,hne,↓reduceDIte]

theorem decreaseExponent_eq (m i j : Nat) :
    decreaseExponent (m * 2 ^ i) (-(i : Int)) (-(j : Int)) = (m * 2 ^ max i j,-((max i j : Nat) : Int)) := by
  have hshift : (-(i : Int) - -(j : Int)).toNat = max i j - i := by omega
  have hpower : i + (max i j - i) = max i j := by omega
  rw [decreaseExponent,hshift,Nat.shiftLeft_eq,Nat.mul_assoc,← Nat.pow_add,hpower]
  congr 1
  omega

theorem decreaseExponent_of_le (h : i ≤ j) :
    decreaseExponent (m * 2 ^ i) (-(i : Int)) (-(j : Int)) = (m * 2 ^ j,-(j : Int)) := by
  rw [decreaseExponent_eq,Nat.max_eq_right h]

/-- A whole number is not changed by rounding, with however many places it is written. -/
theorem normalize_exact (hsmall : m < 2 ^ 53) (j : Nat) :
    UnpackedFloat.normalize .binary64 ((m * 2 ^ j : Nat) : Int) (-(j : Int)) .positive = whole m := by
  by_cases hm : m = 0
  · rw [hm,Nat.zero_mul]
    rfl
  · have hpos : (0 : Int) < ((m * 2 ^ j : Nat) : Int) :=
      Int.natCast_pos.mpr (Nat.mul_pos (Nat.pos_of_ne_zero hm) (Nat.two_pow_pos j))
    rw [UnpackedFloat.normalize,Int.compare_eq_gt.mpr hpos]
    show UnpackedFloat.round .binary64 .positive (m * 2 ^ j) (-(j : Int)) = whole m
    rw [UnpackedFloat.round,targetExponent_eq hm hsmall,decreaseExponent_eq]
    exact roundWithAccuracy_exact hm hsmall (Nat.le_max_right j (places m))

/-! ## Operations -/

theorem min_neg_places : min (-(places a : Int)) (-(places b : Int)) = -((max (places a) (places b) : Nat) : Int) := by
  omega

theorem zero_add_whole (b : Nat) : UnpackedFloat.add .binary64 (.zero .positive) (whole b) = whole b := by
  unfold whole
  split <;> rfl

theorem whole_add_zero (a : Nat) : UnpackedFloat.add .binary64 (whole a) (.zero .positive) = whole a := by
  unfold whole
  split <;> rfl

theorem add_whole (h : a + b < 2 ^ 53) : UnpackedFloat.add .binary64 (whole a) (whole b) = whole (a + b) := by
  by_cases ha : a = 0
  · rw [ha,Nat.zero_add]
    exact zero_add_whole b
  · by_cases hb : b = 0
    · rw [hb,Nat.add_zero]
      exact whole_add_zero a
    · have hsum := normalize_exact h (max (places a) (places b))
      rw [Nat.add_mul,Int.natCast_add] at hsum
      rw [whole_of_ne_zero ha,whole_of_ne_zero hb,UnpackedFloat.add,min_neg_places,
        decreaseExponent_of_le (Nat.le_max_left _ _),decreaseExponent_of_le (Nat.le_max_right _ _)]
      exact hsum

theorem whole_sub_zero (a : Nat) : UnpackedFloat.sub .binary64 (whole a) (.zero .positive) = whole a := by
  unfold whole
  split <;> rfl

theorem sub_whole (hle : b ≤ a) (ha : a < 2 ^ 53) :
    UnpackedFloat.sub .binary64 (whole a) (whole b) = whole (a - b) := by
  by_cases hb : b = 0
  · rw [hb,Nat.sub_zero]
    exact whole_sub_zero a
  · have hne : a ≠ 0 := fun h => hb (Nat.le_zero.mp (h ▸ hle))
    have hdifference := normalize_exact (Nat.lt_of_le_of_lt (Nat.sub_le a b) ha) (max (places a) (places b))
    rw [Nat.sub_mul,Int.natCast_sub (Nat.mul_le_mul_right _ hle)] at hdifference
    rw [whole_of_ne_zero hne,whole_of_ne_zero hb,UnpackedFloat.sub,min_neg_places,
      decreaseExponent_of_le (Nat.le_max_left _ _),decreaseExponent_of_le (Nat.le_max_right _ _)]
    exact hdifference

theorem zero_mul_whole (b : Nat) : UnpackedFloat.mul .binary64 (.zero .positive) (whole b) = .zero .positive := by
  unfold whole
  split <;> rfl

theorem whole_mul_zero (a : Nat) : UnpackedFloat.mul .binary64 (whole a) (.zero .positive) = .zero .positive := by
  unfold whole
  split <;> rfl

/-- The places of both factors are enough for those of the product. -/
theorem places_mul_le (ha : a ≠ 0) (hb : b ≠ 0) : places (a * b) ≤ places a + places b := by
  have hlog : a.log2 ≤ (a * b).log2 := by
    apply (Nat.le_log2 (Nat.mul_ne_zero ha hb)).mpr
    exact (Nat.log2_self_le ha).trans (Nat.le_mul_of_pos_right a (Nat.pos_of_ne_zero hb))
  rw [places,places]
  omega

theorem mul_whole (h : a * b < 2 ^ 53) : UnpackedFloat.mul .binary64 (whole a) (whole b) = whole (a * b) := by
  by_cases ha : a = 0
  · rw [ha,Nat.zero_mul]
    exact zero_mul_whole b
  · by_cases hb : b = 0
    · rw [hb,Nat.mul_zero]
      exact whole_mul_zero a
    · have hproduct := roundWithAccuracy_exact (Nat.mul_ne_zero ha hb) h (places_mul_le ha hb)
      have hexponent : -((places a + places b : Nat) : Int) = -(places a : Int) + -(places b : Int) := by omega
      rw [hexponent,Nat.pow_add,Nat.mul_mul_mul_comm] at hproduct
      rw [whole_of_ne_zero ha,whole_of_ne_zero hb,UnpackedFloat.mul]
      exact hproduct

theorem lt_positive {k m : Nat} {d e : Int} {hk : 0 < k} {hm : 0 < m} :
    (UnpackedFloat.finite .positive k d hk).lt (.finite .positive m e hm) = decide (d < e ∨ d = e ∧ k < m) := by
  rw [UnpackedFloat.lt,UnpackedFloat.compare]
  apply Bool.eq_iff_iff.mpr
  rw [beq_iff_eq,Option.some.injEq,Ordering.then_eq_lt,Int.compare_eq_lt,Int.compare_eq_eq,Nat.compare_eq_lt,
    decide_eq_true_iff]

theorem zero_lt_whole (b : Nat) : (UnpackedFloat.zero .positive).lt (whole b) = decide (0 < b) := by
  unfold whole
  split
  case isTrue hb =>
    subst hb
    rfl
  case isFalse hb => exact (decide_eq_true (Nat.pos_of_ne_zero hb)).symm

theorem not_whole_lt_zero (a : Nat) : (whole a).lt (.zero .positive) = false := by
  unfold whole
  split <;> rfl

theorem lt_whole (ha : a < 2 ^ 53) (hb : b < 2 ^ 53) : (whole a).lt (whole b) = decide (a < b) := by
  by_cases hb0 : b = 0
  · rw [hb0]
    exact not_whole_lt_zero a
  · by_cases ha0 : a = 0
    · rw [ha0]
      exact zero_lt_whole b
    · have hpa := log2_add_places ha0 ha
      have hpb := log2_add_places hb0 hb
      rw [whole_of_ne_zero ha0,whole_of_ne_zero hb0,lt_positive]
      apply decide_eq_decide.mpr
      -- the number with the higher leading digit has fewer places and is the greater one
      rcases Nat.lt_trichotomy a.log2 b.log2 with hlog | hlog | hlog
      · have hab : a < b := Nat.lt_of_lt_of_le ((Nat.log2_lt ha0).mp hlog) (Nat.log2_self_le hb0)
        exact iff_of_true (Or.inl (by omega)) hab
      · have hplaces : places a = places b := by omega
        rw [hplaces]
        simp
      · have hba : b < a := Nat.lt_of_lt_of_le ((Nat.log2_lt hb0).mp hlog) (Nat.log2_self_le ha0)
        exact iff_of_false (by omega) (Nat.lt_asymm hba)

/-! ## Packed doubles -/

/-- The hidden bit is the leading digit that the packed double leaves out. -/
theorem toNat_hiddenBit_append (hlow : 2 ^ 52 ≤ m) (hhigh : m < 2 ^ 53) : (1#1 ++ BitVec.ofNat 52 m).toNat = m := by
  have hrest : (BitVec.ofNat 52 m).toNat = m - 2 ^ 52 := by
    rw [BitVec.toNat_ofNat]
    omega
  have hadd := Nat.two_pow_add_eq_or_of_lt (i := 52) (b := m - 2 ^ 52) (by omega) 1
  rw [BitVec.toNat_append,hrest,Nat.shiftLeft_eq,Nat.mul_comm]
  exact hadd.symm.trans (by omega)

theorem unpack_pack_normal {e : Int} (hm : 0 < m) (hlog : m.log2 = 52) (hlow : -1074 ≤ e) (hhigh : e ≤ 971) :
    UnpackedFloat.unpack .binary64 (UnpackedFloat.pack .binary64 (.finite .positive m e hm)) =
      .finite .positive m e hm := by
  have hbits : Format.binary64.mantissaBits = 53 := rfl
  have hbias : Format.binary64.exponentBias = 1023 := rfl
  obtain ⟨hlow',hhigh'⟩ := (Nat.log2_eq_iff hm.ne').mp hlog
  obtain ⟨k,hk⟩ : ∃ k : Nat, e + 1075 = k := ⟨(e + 1075).toNat,by omega⟩
  have hbiased : (e + (1023 : Nat) + (52 : Nat)).toNat = k := by omega
  have hfield : (BitVec.ofNat 11 k).toNat = k := by
    rw [BitVec.toNat_ofNat]
    omega
  have hfinite : BitVec.ofNat 11 k ≠ -1#11 := by
    intro h
    have : k = 2047 := hfield.symm.trans (congrArg BitVec.toNat h)
    omega
  have hnormal : BitVec.ofNat 11 k ≠ 0#11 := by
    intro h
    have : k = 0 := hfield.symm.trans (congrArg BitVec.toNat h)
    omega
  rw [UnpackedFloat.pack,hbits,hbias,hlog]
  dsimp only
  rw [hbiased,if_neg (by omega),if_pos rfl,UnpackedFloat.unpack]
  simp only [unpackExponent_packComponents,unpackMantissa_packComponents,unpackSign_packComponents,
    Sign.ofBitVec_toBitVec,hfinite,hnormal,↓reduceIte,toNat_hiddenBit_append hlow' hhigh',hfield]
  congr 1
  omega

theorem unpack_pack_whole (hsmall : m < 2 ^ 53) : (Float.Model.pack (whole m)).unpack = whole m := by
  show UnpackedFloat.unpack .binary64 (UnpackedFloat.pack .binary64 (whole m)) = whole m
  by_cases hm : m = 0
  · rw [hm]
    exact unpack_packedZero
  · have hlog := log2_add_places hm hsmall
    rw [whole_of_ne_zero hm]
    exact unpack_pack_normal _ (by rw [log2_mul_two_pow hm,hlog]) (by omega) (by omega)

theorem toModel_toFloat (hsmall : m < 2 ^ 53) : m.toUInt64.toFloat.toModel = .pack (whole m) := by
  have hm : m.toUInt64.toNat = m := UInt64.toNat_ofNat_of_lt' (hsmall.trans (by decide))
  have hnormal := normalize_exact hsmall 0
  rw [Nat.pow_zero,Nat.mul_one] at hnormal
  show Float.Model.pack (UnpackedFloat.normalize .binary64 (m.toUInt64.toNat : Int) 0 .positive) = _
  rw [hm]
  exact congrArg _ hnormal

theorem toModel_one : (Float.ofBits 0x3FF0000000000000).toModel = .pack (whole 1) := by decide +kernel

/-- The double of a number is its conversion from an integer of 64 bits, times one. -/
theorem toModel_ofNat (hsmall : m < 2 ^ 53) : (Float.ofNat m).toModel = .pack (whole m) := by
  have hproduct : Float.ofNat m = m.toUInt64.toFloat * Float.ofBits 0x3FF0000000000000 := by
    show Float.ofScientific m false 0 = _
    rw [Float.ofScientific,dif_pos ⟨hsmall,by decide⟩]
    rfl
  rw [hproduct]
  show Float.Model.pack (UnpackedFloat.mul .binary64 m.toUInt64.toFloat.toModel.unpack
    (Float.ofBits 0x3FF0000000000000).toModel.unpack) = _
  rw [toModel_toFloat hsmall,toModel_one,unpack_pack_whole hsmall,unpack_pack_whole (by decide),
    mul_whole (by rwa [Nat.mul_one]),Nat.mul_one]

theorem unpack_ofNat (hsmall : m < 2 ^ 53) : (Float.ofNat m).toModel.unpack = whole m := by
  rw [toModel_ofNat hsmall,unpack_pack_whole hsmall]

theorem eq_ofNat {x : Float} (hsmall : m < 2 ^ 53) (hx : x.toModel = .pack (whole m)) : x = Float.ofNat m := by
  rcases x with ⟨x⟩
  exact congrArg Float.ofModel (hx.trans (toModel_ofNat hsmall).symm)

theorem ofNat_add (h : a + b < 2 ^ 53) : Float.ofNat a + Float.ofNat b = Float.ofNat (a + b) := by
  have ha := unpack_ofNat (m := a) (by omega)
  have hb := unpack_ofNat (m := b) (by omega)
  apply eq_ofNat h
  show Float.Model.pack (UnpackedFloat.add .binary64 (Float.ofNat a).toModel.unpack (Float.ofNat b).toModel.unpack) = _
  rw [ha,hb,add_whole h]

theorem ofNat_sub (hle : b ≤ a) (ha : a < 2 ^ 53) : Float.ofNat a - Float.ofNat b = Float.ofNat (a - b) := by
  have hb := unpack_ofNat (Nat.lt_of_le_of_lt hle ha)
  apply eq_ofNat (Nat.lt_of_le_of_lt (Nat.sub_le a b) ha)
  show Float.Model.pack (UnpackedFloat.sub .binary64 (Float.ofNat a).toModel.unpack (Float.ofNat b).toModel.unpack) = _
  rw [unpack_ofNat ha,hb,sub_whole hle ha]

theorem ofNat_mul (ha : a < 2 ^ 53) (hb : b < 2 ^ 53) (h : a * b < 2 ^ 53) :
    Float.ofNat a * Float.ofNat b = Float.ofNat (a * b) := by
  apply eq_ofNat h
  show Float.Model.pack (UnpackedFloat.mul .binary64 (Float.ofNat a).toModel.unpack (Float.ofNat b).toModel.unpack) = _
  rw [unpack_ofNat ha,unpack_ofNat hb,mul_whole h]

theorem ofNat_lt (ha : a < 2 ^ 53) (hb : b < 2 ^ 53) : Float.ofNat a < Float.ofNat b ↔ a < b := by
  have hlt : Float.ofNat a < Float.ofNat b ↔
      (Float.ofNat a).toModel.unpack.lt (Float.ofNat b).toModel.unpack = true := decide_eq_true_iff
  rw [hlt,unpack_ofNat ha,unpack_ofNat hb,lt_whole ha hb,decide_eq_true_iff]

end RunoffAudit.Binary64
