import RunoffAudit.Document.Value
import RunoffAudit.Text.Control

/-! # Texts that can be encoded, values that can be written

A text can be encoded exactly if it is one of characters. What is put together from texts that can be encoded can be
encoded too, and leaving out control sequences does no harm. A value can be written if no integer in it is too long.
-/
namespace RunoffAudit

namespace Text
variable {s t : Text} {ts : List Text} {cs : String}

theorem isCharacter_toNat (c : Char) : isCharacter c.toNat = true := decide_eq_true c.valid

theorem toNat_ofNat {code : Nat} (h : isCharacter code = true) : (Char.ofNat code).toNat = code := by
  have hvalid : code.isValidChar := of_decide_eq_true h
  rw [Char.ofNat,dif_pos hvalid]
  rfl

@[simp] theorem isEncodable_ofString (cs : String) : (ofString cs).isEncodable = true := by
  simp [isEncodable,ofString,isCharacter_toNat]

@[simp] theorem isEncodable_append : (s ++ t).isEncodable = (s.isEncodable && t.isEncodable) := List.all_append

theorem intercalate_cons_cons (s t t' : Text) (ts : List Text) :
    intercalate s (t :: t' :: ts) = t ++ s ++ intercalate s (t' :: ts) :=
  congrArg Text.mk List.intercalate_cons_cons

theorem isEncodable_intercalate (hs : s.isEncodable = true) (hts : ∀ t ∈ ts, t.isEncodable = true) :
    (intercalate s ts).isEncodable = true := by
  induction ts with
  | nil => rfl
  | cons t rest ih =>
    obtain ⟨ht,hrest⟩ := List.forall_mem_cons.mp hts
    cases rest with
    | nil => simpa [intercalate,isEncodable] using ht
    | cons t' others =>
      rw [intercalate_cons_cons,isEncodable_append,isEncodable_append,hs,ht,ih hrest]
      rfl

theorem points_ofString_ne_nil (h : cs ≠ "") : (ofString cs).points ≠ [] :=
  fun hnil => h (String.toList_eq_nil_iff.mp (List.map_eq_nil_iff.mp hnil))

theorem ofString_ofList (h : t.isEncodable = true) : ofString (String.ofList (t.points.map Char.ofNat)) = t := by
  have hpoints : t.points.map (fun code => (Char.ofNat code).toNat) = t.points := by
    refine (List.map_congr_left fun code hcode => ?_).trans (List.map_id _)
    exact toNat_ofNat (List.all_eq_true.mp h code hcode)
  rw [ofString,String.toList_ofList,List.map_map]
  exact congrArg Text.mk hpoints

theorem encode_of_isEncodable (h : t.isEncodable = true) :
    t.encode = .ok (String.ofList (t.points.map Char.ofNat)) := if_pos h

theorem dropControls_sublist (skip : Nat) (codes : List Nat) : (dropControls skip codes).Sublist codes := by
  induction codes generalizing skip with
  | nil => cases skip <;> exact .slnil
  | cons code rest ih =>
    cases skip with
    | succ skip => exact .cons _ (ih skip)
    | zero =>
      rw [dropControls]
      split
      · split
        · exact .cons _ (ih _)
        · exact .cons_cons _ (ih 0)
      · exact .cons_cons _ (ih 0)

theorem isEncodable_withoutControls (h : t.isEncodable = true) : t.withoutControls.isEncodable = true :=
  List.all_eq_true.mpr fun code hcode =>
    List.all_eq_true.mp h code ((dropControls_sublist 0 t.points).subset hcode)

end Text

namespace Value

theorem plain_ofText (t : Text) : (ofText t).plain = t := by
  unfold ofText
  split
  case isTrue h => exact Text.ofString_ofList h
  case isFalse => rfl

theorem isWritable_ofText (t : Text) : (ofText t).isWritable = true := by
  unfold ofText
  split <;> rfl

theorem isEmpty_ofText {t : Text} (h : t.points ≠ []) : (ofText t).isEmpty = false := by
  unfold ofText
  split
  · simpa [isEmpty] using h
  · simpa [isEmpty] using h

theorem itemsWritable_iff {items : List Value} :
    itemsWritable items = true ↔ ∀ v ∈ items, v.isWritable = true := by
  induction items with
  | nil => exact iff_of_true rfl fun _ hv => absurd hv List.not_mem_nil
  | cons v rest ih => rw [itemsWritable,Bool.and_eq_true,ih,List.forall_mem_cons]

theorem isWritable_int_iff {k : Int} : (int k).isWritable = true ↔ k.natAbs < Text.digitBound := by
  rw [isWritable,decide_eq_true_eq]

theorem isWritable_ints_iff {ks : List Int} :
    (ints ks).isWritable = true ↔ ∀ k ∈ ks, k.natAbs < Text.digitBound := by
  rw [ints,isWritable,itemsWritable_iff,List.forall_mem_map]
  exact forall₂_congr fun _ _ => isWritable_int_iff

end Value
end RunoffAudit
