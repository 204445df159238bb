import RunoffAudit.Problem.File
import RunoffAudit.Proofs.Paths

/-! # Files are found where they were saved

A file is saved where its path resolves to, component by component, and its directories are made. The path itself then
leads to the file if none of its components goes back to a parent.
-/
namespace RunoffAudit
open Metered RunoffAudit.Path

variable {format : DocumentFormat} {d d' : Disk} {here l above : Location} {path : String} {ps below front back : List String}
  {part : String} {p : Problem}

/-! ## What stands above a saved file -/

/-- Nothing in the way of a file is a file itself, and no component is too long. -/
def Disk.Clear (d : Disk) : (above : Location) → (below : List String) → Prop
  | _, [] => True
  | above, part :: rest => d.kind above ≠ .file ∧ Location.fits part = true ∧ d.Clear (above ++ [part]) rest

namespace Problem

theorem approach_eq_ok_iff : (approach (Disk.access format) l above below).run d = (.ok (),d') ↔
    d' = d ∧ d.Clear above below := by
  induction below generalizing above with
  | nil =>
    constructor
    · rintro ⟨⟩
      exact ⟨rfl,trivial⟩
    · rintro ⟨rfl,_⟩
      rfl
  | cons part rest ih =>
    have hkind : (Disk.access format).kind above d = (d.kind above,d) := rfl
    have hmake : (Disk.access format).makeDirectory above d = ((),d.makeDirectory above) := rfl
    unfold approach StateT.run
    rw [run_bind hkind,Disk.Clear]
    split
    case isTrue hfile =>
      constructor
      · rintro ⟨⟩
      · rintro ⟨_,hfile',_⟩
        exact absurd hfile hfile'
    case isFalse hfile =>
      split
      case isTrue hfits =>
        refine ih.trans ?_
        simp only [hfile,hfits,ne_eq,not_false_eq_true,true_and]
      case isFalse hfits =>
        rw [run_bind hmake]
        constructor
        · rintro ⟨⟩
        · rintro ⟨_,_,hfits',_⟩
          exact absurd hfits' hfits

/-- A problem is saved exactly if no integer in it is too long and nothing is in the way. -/
theorem save_eq_ok_iff : (save (Disk.access format) l p).run d = (.ok (),d') ↔
    d' = d.write l (p.toText format) ∧ p.toValue.isWritable = true ∧ d.kind l ≠ .directory ∧ d.Clear [] l ∧
      (Location.text l.dropLast).utf8ByteSize < Location.pathLimit ∧ l.text.utf8ByteSize < Location.pathLimit := by
  have hkind : ∀ d : Disk, (Disk.access format).kind l d = (d.kind l,d) := fun _ => rfl
  have hmake : ∀ d : Disk, (Disk.access format).makeDirectory l.dropLast d = ((),d.makeDirectory l.dropLast) :=
    fun _ => rfl
  unfold save StateT.run
  dsimp only
  constructor
  · intro h
    split at h
    · cases h
    case isFalse hparent =>
      rcases happroach : approach (Disk.access format) l [] l d with ⟨e | ⟨⟩,d₁⟩
      · rw [run_bind happroach] at h
        cases h
      · obtain ⟨rfl,hclear⟩ := approach_eq_ok_iff.mp happroach
        rw [run_bind happroach] at h
        dsimp only at h
        split at h
        · rw [run_bind (hmake _)] at h
          cases h
        case isFalse hwritable =>
          split at h
          · rw [run_bind (hmake _)] at h
            cases h
          case isFalse hsize =>
            rw [run_bind (hkind _)] at h
            split at h
            · cases h
            case isFalse hdirectory =>
              cases h
              exact ⟨rfl,by simpa using hwritable,hdirectory,hclear,Nat.not_le.mp hparent,Nat.not_le.mp hsize⟩
  · rintro ⟨rfl,hwritable,hdirectory,hclear,hparent,hsize⟩
    have happroach : approach (Disk.access format) l [] l d = (.ok (),d) := approach_eq_ok_iff.mpr ⟨rfl,hclear⟩
    rw [if_neg (Nat.not_le.mpr hparent),run_bind happroach]
    dsimp only
    rw [hwritable,if_neg (by decide),if_neg (Nat.not_le.mpr hsize),run_bind (hkind d),if_neg hdirectory]
    rfl

theorem text?_write (d : Disk) (l : Location) (text : String) : (d.write l text).text? l = some text := by
  simp [Disk.text?,Disk.write]

theorem kind_write (d : Disk) (l : Location) (text : String) : (d.write l text).kind l = .file := by
  simp [Disk.kind,Disk.write]

end Problem

namespace Disk

theorem Clear.of_append (h : d.Clear above (front ++ below)) : d.Clear (above ++ front) below := by
  induction front generalizing above with
  | nil => rwa [List.append_nil]
  | cons part rest ih =>
    obtain ⟨_,_,hrest⟩ := h
    rw [List.append_cons]
    exact ih hrest

/-- Above a file that is written stand directories. -/
theorem kind_write_above (text : String) (h : d.kind above ≠ .file) (hl : l = above ++ part :: back) :
    (d.write l text).kind above = .directory := by
  have hbefore : ∀ f ∈ d.files, f.1 ≠ above := by
    intro f hf heq
    apply h
    rw [kind,if_pos (List.any_eq_true.mpr ⟨f,hf,decide_eq_true heq⟩)]
  have hproper : l ≠ above := by
    intro heq
    have hlength := congrArg List.length (hl.symm.trans heq)
    simp at hlength
  have hnofile : ¬ (d.write l text).files.any (·.1 = above) = true := by
    rw [List.any_eq_true]
    rintro ⟨f,hf,heq⟩
    rcases List.mem_cons.mp hf with rfl | hf
    · exact hproper (of_decide_eq_true heq)
    · exact hbefore f (List.mem_filter.mp hf).1 (of_decide_eq_true heq)
  have hbelow : (d.write l text).files.any (above.isPrefixOf ·.1) = true := by
    refine List.any_eq_true.mpr ⟨(l,text),List.mem_cons_self,?_⟩
    rw [List.isPrefixOf_iff_prefix]
    exact ⟨_,hl.symm⟩
  rw [kind,if_neg hnofile,if_pos (by rw [hbelow,Bool.or_true])]

theorem leads_write (text : String) (hclear : d.Clear above ps) (hl : l = above ++ ps)
    (hps : ∀ part ∈ ps, ¬ Blank part ∧ part ≠ "..") : (d.write l text).Leads ps above := by
  induction ps generalizing above with
  | nil => trivial
  | cons part rest ih =>
    obtain ⟨hfile,hfits,hrest⟩ := hclear
    obtain ⟨hblank,hparent⟩ := hps part List.mem_cons_self
    have hstep := Location.step_plain hblank hparent above
    have hl' : l = (above ++ [part]) ++ rest := by rw [hl,List.append_assoc]; rfl
    refine ⟨kind_write_above text hfile hl,hfits,?there,?rest⟩
    case there =>
      rw [hstep]
      cases rest with
      | nil =>
        rw [← List.append_nil (above ++ [part]),← hl',Problem.kind_write]
        decide
      | cons next others =>
        rw [kind_write_above text hrest.1 hl']
        decide
    case rest =>
      rw [hstep]
      exact ih hrest hl' fun q hq => hps q (List.mem_cons_of_mem part hq)

theorem leads_blanks {blanks : List String} (hblanks : ∀ part ∈ blanks, Blank part) (hkind : d.kind l = .directory)
    (h : d.Leads ps l) : d.Leads (blanks ++ ps) l := by
  induction blanks with
  | nil => exact h
  | cons part rest ih =>
    have hblank := hblanks part List.mem_cons_self
    have hfits : Location.fits part = true := by
      rcases hblank with rfl | rfl <;> decide
    refine ⟨hkind,hfits,?_,?_⟩
    · rw [Location.step_blank hblank,hkind]
      decide
    · rw [Location.step_blank hblank]
      exact ih fun q hq => hblanks q (List.mem_cons_of_mem part hq)

end Disk

theorem Disk.kind_root (hnamed : ∀ f ∈ d.files, Location.name f.1 ≠ "") : d.kind [""] = .directory := by
  have hnofile : ¬ d.files.any (·.1 = [""]) = true := by
    rw [List.any_eq_true]
    rintro ⟨f,hf,heq⟩
    exact hnamed f hf (by rw [of_decide_eq_true heq]; rfl)
  rw [kind,if_neg hnofile]
  rfl

/-- A path that never goes back to a parent leads to what was saved under it. -/
theorem lookup_of_save (hnamed : ∀ f ∈ d.files, Location.name f.1 ≠ "") (hhere : d.kind here = .directory)
    (hparent : ".." ∉ Path.components path) (hsize : (Path.normal path).utf8ByteSize < Location.pathLimit)
    (hsave : (Problem.save (Disk.access format) (Location.resolve here path) p).run d = (.ok (),d')) :
    ((Disk.access format).lookup here (Path.normal path)).run d' = (.found (Location.resolve here path),d') := by
  obtain ⟨rfl,_,hdirectory,hclear,_⟩ := Problem.save_eq_ok_iff.mp hsave
  have hplain : ∀ part ∈ Path.components path, ¬ Blank part ∧ part ≠ ".." :=
    fun part hpart => ⟨(Path.mem_components.mp hpart).2,fun h => hparent (h ▸ hpart)⟩
  have hl : Location.resolve here path = Location.base here path ++ Path.components path := by
    rw [Location.resolve_eq,Location.foldl_step_plain hplain]
  have hbase : d.kind (Location.base here path) = .directory := by
    unfold Location.base
    split
    · exact Disk.kind_root hnamed
    · exact hhere
  rw [hl] at hdirectory hclear ⊢
  by_cases hnil : Path.components path = []
  · rw [hnil,List.append_nil] at hdirectory
    exact absurd hbase hdirectory
  · obtain ⟨part,rest,hcons⟩ := List.exists_cons_of_ne_nil hnil
    have hbelow : d.Clear (Location.base here path) (Path.components path) := hclear.of_append
    have hleads := Disk.leads_write (p.toText format) hbelow rfl hplain
    have hbase' := Disk.kind_write_above (p.toText format) (hcons ▸ hbelow).1 (congrArg _ hcons)
    obtain ⟨blanks,hblanks,hstart⟩ := Location.start_normal here path
    have hfollow := Disk.follow_of_leads format (Disk.leads_blanks hblanks hbase' hleads)
    rw [Location.foldl_step_blanks hblanks,Location.foldl_step_plain hplain] at hfollow
    unfold Files.lookup
    rw [if_neg (normal_ne_empty path),if_neg (Nat.not_le.mpr hsize),hstart]
    exact hfollow

end RunoffAudit
