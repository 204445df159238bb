import RunoffAudit.Files.Basic
import RunoffAudit.Proofs.Work

/-! # Where paths lead

A path can be read from its components alone, or followed from directory to directory. What it is followed to is what is
read, but a parent is followed only out of a directory that is there. The normal form of a path has the same components,
so it leads to the same location.
-/
namespace RunoffAudit
open Metered

/-! ## Components -/

namespace Path
variable {cs part : List Char} {path : String}

theorem cut_eq_splitOn (cs : List Char) : cut cs = cs.splitOn '/' := by
  induction cs with
  | nil => rfl
  | cons c rest ih =>
    obtain ⟨part,parts,h⟩ := List.exists_cons_of_ne_nil (List.splitOn_ne_nil '/' rest)
    rw [cut,ih,h,List.splitOn_cons_eq_if_modifyHead,h]
    simp

theorem cut_ne_nil (cs : List Char) : cut cs ≠ [] := cut_eq_splitOn cs ▸ List.splitOn_ne_nil '/' cs

theorem cut_cons_slash (cs : List Char) : cut ('/' :: cs) = [] :: cut cs := if_pos rfl

theorem cut_cons {c : Char} (hc : c ≠ '/') (cs : List Char) :
    ∃ part parts, cut cs = part :: parts ∧ cut (c :: cs) = (c :: part) :: parts := by
  obtain ⟨part,parts,h⟩ := List.exists_cons_of_ne_nil (cut_ne_nil cs)
  exact ⟨part,parts,h,by rw [cut,if_neg hc,h]⟩

theorem no_slash_of_mem_cut (h : part ∈ cut cs) : '/' ∉ part := by
  induction cs generalizing part with
  | nil =>
    obtain rfl := List.mem_singleton.mp h
    exact List.not_mem_nil
  | cons c rest ih =>
    by_cases hc : c = '/'
    · subst hc
      rw [cut_cons_slash] at h
      rcases List.mem_cons.mp h with rfl | h
      · exact List.not_mem_nil
      · exact ih h
    · obtain ⟨first,others,hrest,hcut⟩ := cut_cons hc rest
      rw [hcut] at h
      rcases List.mem_cons.mp h with rfl | h
      · have hfirst : '/' ∉ first := ih (hrest ▸ List.mem_cons_self)
        simpa [hfirst] using Ne.symm hc
      · exact ih (hrest ▸ List.mem_cons_of_mem _ h)

/-- Components that mean nothing. -/
def Blank (part : String) : Prop := part = "" ∨ part = "."

theorem not_blank_iff {part : String} : ¬ Blank part ↔ part ≠ "" ∧ part ≠ "." := not_or

theorem mem_components {part : String} : part ∈ components path ↔ part ∈ Location.parts path ∧ ¬ Blank part := by
  simp [components,Location.parts,Blank]

theorem no_slash_of_mem_components {part : String} (h : part ∈ components path) : '/' ∉ part.toList := by
  obtain ⟨cs,hcs,rfl⟩ := List.mem_map.mp (mem_components.mp h).1
  rw [String.toList_ofList]
  exact no_slash_of_mem_cut hcs

theorem root_cases (path : String) :
    (root path = "" ∧ path.toList.head? ≠ some '/') ∨
    ((root path = "/" ∨ root path = "//") ∧ path.toList.head? = some '/') := by
  have hslash : ∀ cs : List Char, (cs.takeWhile (· = '/')).length = 0 ↔ cs.head? ≠ some '/' := by
    intro cs
    cases cs with
    | nil => simp
    | cons c rest => by_cases hc : c = '/' <;> simp [hc]
  unfold root
  split
  case h_1 h => exact Or.inl ⟨rfl,(hslash _).mp h⟩
  case h_2 h =>
    refine Or.inr ⟨Or.inr rfl,Decidable.not_not.mp fun hne => ?_⟩
    rw [(hslash _).mpr hne] at h
    cases h
  case h_3 h _ => exact Or.inr ⟨Or.inl rfl,Decidable.not_not.mp fun hne => h ((hslash _).mpr hne)⟩

theorem normal_of_root (h : root path ≠ "") :
    normal path = root path ++ "/".intercalate (components path) :=
  if_neg fun hnil => h (String.append_eq_empty_iff.mp hnil).1

theorem normal_ne_empty (path : String) : normal path ≠ "" := by
  unfold normal
  dsimp only
  split
  · decide
  · assumption

end Path

namespace Location
open RunoffAudit.Path

variable {here l : Location} {path part : String} {ps : List String}

theorem parts_slash (path : String) : parts ("/" ++ path) = "" :: parts path := by
  rw [parts,String.toList_append]
  exact congrArg (List.map String.ofList) (cut_cons_slash path.toList)

/-- Joining parts with slashes and cutting at slashes gives the parts again. -/
theorem parts_intercalate (hne : ps ≠ []) (h : ∀ part ∈ ps, '/' ∉ part.toList) :
    parts ("/".intercalate ps) = ps := by
  have hcut : ("/".toList.intercalate (ps.map String.toList)).splitOn '/' = ps.map String.toList :=
    List.splitOn_intercalate '/' (List.forall_mem_map.mpr h) (by simpa using hne)
  rw [parts,cut_eq_splitOn,String.toList_intercalate,hcut,List.map_map]
  exact (List.map_congr_left fun part _ => String.ofList_toList).trans (List.map_id ps)

def base (here : Location) (path : String) : Location := if path.toList.head? = some '/' then [""] else here

theorem start_of_root {first : String} {rest : List String} (h : parts path = "" :: first :: rest) :
    Files.start here path = ([""],first :: rest) := by
  unfold Files.start
  rw [h]
  rfl

theorem start_of_not_root (h : ∀ first rest, parts path ≠ "" :: first :: rest) :
    Files.start here path = (here,parts path) := by
  unfold Files.start
  split
  · exact absurd ‹_› (h _ _)
  · rfl

/-- The components from which all that mean nothing are left out, and what stands in front of them. -/
theorem start_fst_components (here : Location) (path : String) :
    (Files.start here path).1 = base here path ∧
      (Files.start here path).2.filter (fun part => part ≠ "" ∧ part ≠ ".") = components path := by
  have hcomponents : components path = (parts path).filter fun part => part ≠ "" ∧ part ≠ "." := rfl
  cases h : path.toList with
  | nil =>
    have hparts : parts path = [""] := by rw [parts,h]; rfl
    rw [start_of_not_root (by simp [hparts]),base,h,hcomponents]
    exact ⟨rfl,rfl⟩
  | cons c rest =>
    by_cases hc : c = '/'
    · subst hc
      obtain ⟨first,others,hrest⟩ := List.exists_cons_of_ne_nil (cut_ne_nil rest)
      have hparts : parts path = "" :: String.ofList first :: others.map String.ofList := by
        rw [parts,h,cut_cons_slash,hrest]
        rfl
      rw [start_of_root hparts,base,h,hcomponents,hparts]
      exact ⟨rfl,(List.filter_cons_of_neg (by simp)).symm⟩
    · obtain ⟨first,others,_,hcut⟩ := cut_cons hc rest
      have hparts : parts path = String.ofList (c :: first) :: others.map String.ofList := by
        rw [parts,h,hcut]
        rfl
      rw [start_of_not_root (by simp [hparts]),base,h,hcomponents]
      exact ⟨(if_neg (by simpa using hc)).symm,rfl⟩

theorem step_blank (h : Blank part) (l : Location) : step l part = l := if_pos h

theorem step_plain (hblank : ¬ Blank part) (hparent : part ≠ "..") (l : Location) : step l part = l ++ [part] :=
  (if_neg hblank).trans (if_neg hparent)

theorem foldl_step_plain (h : ∀ part ∈ ps, ¬ Blank part ∧ part ≠ "..") : ps.foldl step l = l ++ ps := by
  induction ps generalizing l with
  | nil => exact (List.append_nil l).symm
  | cons part rest ih =>
    obtain ⟨hblank,hparent⟩ := h part List.mem_cons_self
    rw [List.foldl_cons,step_plain hblank hparent,ih fun q hq => h q (List.mem_cons_of_mem part hq),
      List.append_assoc]
    rfl

theorem foldl_step_filter (ps : List String) (l : Location) :
    (ps.filter fun part => part ≠ "" ∧ part ≠ ".").foldl step l = ps.foldl step l := by
  induction ps generalizing l with
  | nil => rfl
  | cons part rest ih =>
    by_cases hblank : Blank part
    · have hdropped : ¬ decide (part ≠ "" ∧ part ≠ ".") = true :=
        fun h => not_blank_iff.mpr (of_decide_eq_true h) hblank
      rw [List.filter_cons,if_neg hdropped,ih,List.foldl_cons,step_blank hblank]
    · rw [List.filter_cons,if_pos (decide_eq_true (not_blank_iff.mp hblank)),List.foldl_cons,List.foldl_cons,ih]

theorem foldl_step_blanks {blanks : List String} (h : ∀ part ∈ blanks, Blank part) (ps : List String) (l : Location) :
    (blanks ++ ps).foldl step l = ps.foldl step l := by
  induction blanks with
  | nil => rfl
  | cons part rest ih =>
    rw [List.cons_append,List.foldl_cons,step_blank (h part List.mem_cons_self)]
    exact ih fun q hq => h q (List.mem_cons_of_mem _ hq)

theorem resolve_eq_start (here : Location) (path : String) :
    resolve here path = (Files.start here path).2.foldl step (Files.start here path).1 := by
  by_cases hroot : ∃ first rest, parts path = "" :: first :: rest
  · obtain ⟨first,rest,hparts⟩ := hroot
    rw [start_of_root hparts,resolve,hparts]
    rfl
  · rw [start_of_not_root fun first rest h => hroot ⟨first,rest,h⟩,resolve]
    split
    case h_1 h => rw [h]; rfl
    case h_2 h => rw [h]; rfl
    case h_3 first rest hne h =>
      have hfirst : first ≠ "" := by
        rintro rfl
        obtain ⟨second,others,rfl⟩ := List.exists_cons_of_ne_nil hne
        exact hroot ⟨second,others,h⟩
      rw [h,if_neg hfirst]

theorem resolve_eq (here : Location) (path : String) :
    resolve here path = (components path).foldl step (base here path) := by
  obtain ⟨hbase,hcomponents⟩ := start_fst_components here path
  rw [resolve_eq_start,hbase,← foldl_step_filter,hcomponents]

/-! ## Normal forms -/

theorem parts_ne_nil (path : String) : parts path ≠ [] :=
  fun h => cut_ne_nil path.toList (List.map_eq_nil_iff.mp h)

theorem parts_joined (h : components path ≠ []) : parts ("/".intercalate (components path)) = components path :=
  parts_intercalate h fun _ => no_slash_of_mem_components

theorem start_slash (here : Location) (path : String) : Files.start here ("/" ++ path) = ([""],parts path) := by
  obtain ⟨first,rest,h⟩ := List.exists_cons_of_ne_nil (parts_ne_nil path)
  rw [start_of_root ((parts_slash path).trans (congrArg _ h)),h]

theorem normal_of_components (h : components path ≠ []) :
    normal path = root path ++ "/".intercalate (components path) := by
  apply if_neg
  intro hnil
  have hparts : parts "" = components path := (String.append_eq_empty_iff.mp hnil).2 ▸ parts_joined h
  have hmem : "" ∈ components path := hparts ▸ List.mem_singleton.mpr rfl
  exact (mem_components.mp hmem).2 (Or.inl rfl)

theorem start_normal_of_root (here : Location) (hroot : root path ≠ "") (hslash : path.toList.head? = some '/') :
    Files.start here (normal path) = (base here path,parts ("/".intercalate (components path))) ∨
    Files.start here (normal path) = (base here path,"" :: parts ("/".intercalate (components path))) := by
  have hbase : base here path = [""] := if_pos hslash
  rw [normal_of_root hroot,hbase]
  rcases root_cases path with ⟨hnone,_⟩ | ⟨hone | htwo,_⟩
  · exact absurd hnone hroot
  · rw [hone]
    exact Or.inl (start_slash here _)
  · have hjoin : "//" ++ "/".intercalate (components path) = "/" ++ ("/" ++ "/".intercalate (components path)) := by
      rw [← String.append_assoc]
      rfl
    rw [htwo,hjoin,← parts_slash]
    exact Or.inr (start_slash here _)

/-- In the normal form of a path some components that mean nothing may come first. -/
theorem start_normal (here : Location) (path : String) :
    ∃ blanks, (∀ part ∈ blanks, Blank part) ∧
      Files.start here (normal path) = (base here path,blanks ++ components path) := by
  have hempty : Blank "" := Or.inl rfl
  rcases root_cases path with ⟨hroot,hslash⟩ | ⟨hroot,hslash⟩
  case inl =>
    have hbase : base here path = here := if_neg hslash
    by_cases hnil : components path = []
    · have hnormal : normal path = "." := by
        rw [normal,hroot,hnil]
        rfl
      rw [hbase,hnormal,hnil]
      exact ⟨["."],by simp [Blank],rfl⟩
    · have hnormal : normal path = "/".intercalate (components path) := by
        rw [normal_of_components hnil,hroot,String.empty_append]
      have hfirst : ∀ first rest, parts (normal path) ≠ "" :: first :: rest := by
        intro first rest hc
        rw [hnormal,parts_joined hnil] at hc
        exact (mem_components.mp (hc ▸ List.mem_cons_self)).2 hempty
      rw [start_of_not_root hfirst,hbase,hnormal,parts_joined hnil]
      exact ⟨[],by simp,rfl⟩
  case inr =>
    have hjoined : ∃ blanks, (∀ part ∈ blanks, Blank part) ∧
        parts ("/".intercalate (components path)) = blanks ++ components path := by
      by_cases hnil : components path = []
      · rw [hnil]
        exact ⟨[""],by simpa using hempty,rfl⟩
      · exact ⟨[],by simp,parts_joined hnil⟩
    have hne : root path ≠ "" := by
      rcases hroot with h | h <;> rw [h] <;> decide
    obtain ⟨blanks,hblanks,hparts⟩ := hjoined
    rcases start_normal_of_root here hne hslash with h | h
    · exact ⟨blanks,hblanks,hparts ▸ h⟩
    · exact ⟨"" :: blanks,List.forall_mem_cons.mpr ⟨hempty,hblanks⟩,by rw [h,hparts]; rfl⟩

theorem resolve_normal (here : Location) (path : String) : resolve here (normal path) = resolve here path := by
  obtain ⟨blanks,hblanks,hstart⟩ := start_normal here path
  rw [resolve_eq_start,hstart,resolve_eq,foldl_step_blanks hblanks]

end Location

/-! ## Following a path -/

namespace Disk
variable {format : DocumentFormat} {d d' : Disk} {here l m : Location} {path : String} {ps : List String}

theorem eq_of_follow (h : ((access format).follow ps l).run d = (.found m,d')) : m = ps.foldl Location.step l := by
  induction ps generalizing l with
  | nil =>
    cases h
    rfl
  | cons part rest ih =>
    have hkind : ∀ k : Location, (access format).kind k d = (d.kind k,d) := fun _ => rfl
    unfold Files.follow StateT.run at h
    rw [run_bind (hkind l)] at h
    split at h
    · cases h
    · split at h
      · cases h
      · rw [run_bind (hkind _)] at h
        split at h
        · cases h
        · exact ih h

theorem eq_of_lookup (h : ((access format).lookup here path).run d = (.found m,d')) : m = Location.resolve here path := by
  unfold Files.lookup at h
  split at h
  · cases h
  · split at h
    · cases h
    · rw [Location.resolve_eq_start]
      exact eq_of_follow h

/-- Where the normal form of a path leads, a file is written that is written under the path. -/
theorem eq_of_lookup_normal (h : ((access format).lookup here (Path.normal path)).run d = (.found m,d')) :
    m = Location.resolve here path := (eq_of_lookup h).trans (Location.resolve_normal here path)

def Leads (d : Disk) : List String → Location → Prop
  | [], _ => True
  | part :: rest, l => d.kind l = .directory ∧ Location.fits part = true ∧ d.kind (l.step part) ≠ .missing ∧
    d.Leads rest (l.step part)

theorem follow_of_leads (format : DocumentFormat) (h : d.Leads ps l) :
    ((access format).follow ps l).run d = (.found (ps.foldl Location.step l),d) := by
  induction ps generalizing l with
  | nil => rfl
  | cons part rest ih =>
    obtain ⟨hdirectory,hfits,hthere,hrest⟩ := h
    have hkind : ∀ k : Location, (access format).kind k d = (d.kind k,d) := fun _ => rfl
    unfold Files.follow StateT.run
    rw [run_bind (hkind l),if_neg (by simpa using hdirectory),if_neg (by simpa using hfits),run_bind (hkind _),
      if_neg hthere]
    exact ih hrest

end Disk
end RunoffAudit
