import RunoffAudit.Proofs.Texts
import RunoffAudit.Report.Markdown

/-! # Reports that can be printed

A report is made of words, numbers and the names of the problem. It can be encoded if the names can.
-/
namespace RunoffAudit

variable {names lines : List Text} {p : Problem} {assertions : List Assertion}

def AllEncodable (ts : List Text) : Prop := ∀ t ∈ ts, t.isEncodable = true

structure Problem.Printable (p : Problem) : Prop where
  name : p.name.isEncodable = true
  names : AllEncodable p.names

theorem allEncodable_flatten {parts : List (List Text)} (h : ∀ ts ∈ parts, AllEncodable ts) :
    AllEncodable parts.flatten := by
  intro t ht
  obtain ⟨ts,hts,ht⟩ := List.mem_flatten.mp ht
  exact h ts hts t ht

theorem Problem.Printable.candidateNames (h : p.Printable) : AllEncodable p.candidateNames := by
  unfold Problem.candidateNames
  split
  · exact List.forall_mem_map.mpr fun _ _ => Text.isEncodable_ofString _
  · exact h.names

section Names
variable (hnames : AllEncodable names)
include hnames

theorem isEncodable_nameIn (c : Candidate) : (nameIn names c).isEncodable = true := by
  cases c with
  | ofNat i =>
    rw [nameIn,List.getD_eq_getElem?_getD]
    cases hi : names[i]? with
    | none => exact Text.isEncodable_ofString _
    | some name => exact hnames name (List.mem_of_getElem? hi)
  | negSucc i => exact Text.isEncodable_ofString _

theorem isEncodable_nameList (separator : String) (cs : List Candidate) :
    (Text.intercalate separator (cs.map (nameIn names))).isEncodable = true :=
  Text.isEncodable_intercalate (Text.isEncodable_ofString separator)
    (List.forall_mem_map.mpr fun c _ => isEncodable_nameIn hnames c)

theorem Assertion.isEncodable_describe (a : Assertion) : (a.describe names).isEncodable = true := by
  cases a <;> simp [describe,isEncodable_nameIn hnames,isEncodable_nameList hnames]

namespace Report

theorem isEncodable_suffixText (s : Suffix) : (suffixText names s).isEncodable = true := by
  simp [suffixText,isEncodable_nameList hnames]

theorem encodable_winnerLine (winner : Option Candidate) : AllEncodable (winnerLine names winner) := by
  unfold winnerLine
  split
  case h_1 i =>
    cases hi : names[i]? with
    | none => nofun
    | some name =>
      have hname := hnames name (List.mem_of_getElem? hi)
      exact List.forall_mem_singleton.mpr (by simp [bold,hname])
  case h_2 => nofun

theorem isEncodable_verdictLine (v : Verdict) : (verdictLine names v).isEncodable = true := by
  unfold verdictLine
  cases v.counterexample <;> cases v.ruledOut <;> simp [isEncodable_nameIn hnames,isEncodable_suffixText hnames]

theorem encodable_pruningLines (v : Verdict) : AllEncodable (pruningLines names assertions v) := by
  have hdescribe : ∀ i : Nat, ((assertions[i]?.map (Assertion.describe names)).getD "").isEncodable = true := by
    intro i
    cases assertions[i]? with
    | none => exact Text.isEncodable_ofString _
    | some a => exact a.isEncodable_describe hnames
  unfold pruningLines
  refine allEncodable_flatten (List.forall_mem_cons.mpr ⟨?title,List.forall_mem_cons.mpr ⟨?pruned,?survivor⟩⟩)
  case title => simp [AllEncodable,isEncodable_nameIn hnames]
  case pruned =>
    refine List.forall_mem_map.mpr fun x _ => ?_
    have hindices : (Text.intercalate ", " (x.2.map fun i : Nat => mark i ++ " (" ++
        (assertions[i]?.map (Assertion.describe names)).getD "" ++ ")")).isEncodable = true := by
      refine Text.isEncodable_intercalate (Text.isEncodable_ofString _) (List.forall_mem_map.mpr fun i _ => ?_)
      simp [hdescribe]
    simp [isEncodable_suffixText hnames,hindices]
  case survivor =>
    refine List.forall_mem_singleton.mpr ?_
    cases v.counterexample with
    | none => nofun
    | some s => exact List.forall_mem_singleton.mpr (by simp [isEncodable_suffixText hnames])

theorem encodable_verdictLines (verdicts : List Verdict) (showPruning : Bool) :
    AllEncodable (verdictLines names assertions verdicts showPruning) := by
  unfold verdictLines
  split
  · nofun
  · refine allEncodable_flatten (List.forall_mem_cons.mpr ⟨?title,List.forall_mem_cons.mpr ⟨?table,?pruning⟩⟩)
    case title => simp [AllEncodable]
    case table => exact List.forall_mem_map.mpr fun v _ => isEncodable_verdictLine hnames v
    case pruning =>
      refine List.forall_mem_singleton.mpr ?_
      split
      · intro t ht
        obtain ⟨v,_,ht⟩ := List.mem_flatMap.mp ht
        exact encodable_pruningLines hnames v t ht
      · nofun

end Report
end Names

namespace Report

theorem isEncodable_errorLine (f : Fault) : (errorLine f).isEncodable = true := by
  simp [errorLine]

theorem encodable_errorLines (faults : List Fault) : AllEncodable (errorLines faults) := by
  unfold errorLines
  split
  · nofun
  · simp [AllEncodable,isEncodable_errorLine]

theorem encodable_verification (hp : p.Printable) (r : ContestReport) (showPruning : Bool) :
    AllEncodable (verification p r showPruning) := by
  unfold verification
  have hnames := hp.candidateNames
  refine allEncodable_flatten ?_
  simp only [List.forall_mem_cons]
  refine ⟨?title,encodable_winnerLine hnames r.winner,?counts,encodable_verdictLines hnames r.verdicts showPruning,
    encodable_errorLines r.faults,?rest⟩
  case title => simp [AllEncodable,bold,hp.name]
  case counts => simp [AllEncodable,fact,bold]
  case rest => simp [AllEncodable]

/-- The report on a trimming names only the candidates of the kept assertions. -/
theorem encodable_trimming {r : TrimResult} (hname : p.name.isEncodable = true)
    (h : ∀ a ∈ r.assertions, (a.describe p.candidateNames).isEncodable = true) : AllEncodable (trimming p r) := by
  unfold trimming
  refine allEncodable_flatten ?_
  simp only [List.forall_mem_cons]
  refine ⟨?title,?none,?kept,encodable_errorLines r.outcome.faults,?rest⟩
  case title => simp [AllEncodable,fact,bold,hname]
  case none => split <;> simp [AllEncodable]
  case kept =>
    refine List.forall_mem_map.mpr fun x hx => ?_
    simp [h x.2 (List.of_mem_zip hx).2]
  case rest => simp [AllEncodable]

theorem isEncodable_text (h : AllEncodable lines) : (text lines).isEncodable = true :=
  Text.isEncodable_intercalate (Text.isEncodable_ofString _) h

end Report
end RunoffAudit
