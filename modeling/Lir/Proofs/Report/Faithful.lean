import Lir.Proofs.Checked.Answer
import Lir.Proofs.Report.Results
import Lir.Proofs.Report.Rows
import Mathlib.Data.List.Perm.Basic
import Std.Data.String.ToInt

/-!
Text reports are faithful.

The rows of a report are what was found under each key, sorted by the texts of keys and items. Texts
tell keys and items of a loaded program apart, so no row and no item is lost on the way, and the
text of a report that keeps empty rows gives back what was found.
-/

set_option autoImplicit false

namespace Lir

inductive Finding where
  | reachingDefs (result : ReachingDefs)
  | frontiers (sets : NameMap NameSet)
  | dominators (sets : NameMap NameSet)
  | constants (rows : List (String × List (String × FlatInt)))

namespace Finding

def ofContext (ctx : Context) : AnalysisKind → Finding
  | .reachingDefs => .reachingDefs (.compute ctx)
  | .frontiers => .frontiers (Dominance.build ctx.graph).frontiers
  | .dominators => .dominators (Dominance.build ctx.graph).dominators
  | .constants => .constants (Constants.endValues ctx (Constants.solve ctx))

def kind : Finding → AnalysisKind
  | .reachingDefs _ => .reachingDefs
  | .frontiers _ => .frontiers
  | .dominators _ => .dominators
  | .constants _ => .constants

def report (includeEmpty : Bool) : Finding → Report
  | .reachingDefs result => .ofReachingDefs result includeEmpty
  | .frontiers sets | .dominators sets => .ofBlockSets sets
  | .constants rows => .ofConstants rows includeEmpty

/-- Requests report what the analyses find. -/
theorem analyse_eq_report (ctx : Context) (includeEmpty : Bool) (kind : AnalysisKind) :
    Request.analyse ctx includeEmpty kind = (ofContext ctx kind).report includeEmpty := by
  cases kind <;> rfl

def entries : Finding → List (String × List String)
  | .reachingDefs result =>
    result.solution.toList.map fun row => (row.1.render, row.2.toList.map Point.render)
  | .frontiers sets | .dominators sets => sets.toList.map fun row => (row.1, row.2.toList)
  | .constants rows =>
    rows.map fun row => (row.1, row.2.map fun value => value.1 ++ " -> " ++ value.2.render)

/-- The entries that a report keeps: for dominance those of all blocks, and else those that are not
empty, unless empty ones are asked for. -/
def kept (includeEmpty : Bool) (found : Finding) : List (String × List String) :=
  match found with
  | .frontiers _ | .dominators _ => found.entries
  | .reachingDefs _ | .constants _ =>
    found.entries.filter fun entry => includeEmpty || !entry.2.isEmpty

def Same : Finding → Finding → Prop
  | .reachingDefs result, .reachingDefs other => result.solution = other.solution
  | .frontiers sets, .frontiers others | .dominators sets, .dominators others => sets = others
  | .constants rows, .constants others => rows = others
  | _, _ => False

/-- What can be found in a program: all that its contexts give, and dominance also in functions
without an entry block. -/
inductive In (p : Program) : Finding → Prop where
  | context {name : String} {ctx : Context} (built : Context.build p name = .ok ctx)
      (kind : AnalysisKind) : In p (ofContext ctx kind)
  | frontiers {name : String} {f : Function} (listed : p.functions.get? name = some f) :
      In p (.frontiers (Dominance.build f.graph).frontiers)
  | dominators {name : String} {f : Function} (listed : p.functions.get? name = some f) :
      In p (.dominators (Dominance.build f.graph).dominators)

def Spelled : Finding → Prop
  | .reachingDefs result => SpelledSolution result.solution
  | .frontiers sets | .dominators sets => SpelledSets sets
  | .constants rows => SpelledConstants rows

theorem In.spelled {source : String} {finding : Finding}
    (found : finding.In (Program.load source).1) : finding.Spelled := by
  have writable := Program.writable_load source
  cases found with
  | @context name ctx built kind =>
    rcases Context.build_cases (Program.load source).1 name with
      ⟨_, failed⟩ | ⟨f, _, _, failed⟩ | ⟨f, listed, entry, succeeded⟩
    · simp [failed] at built
    · simp [failed] at built
    · obtain rfl := Except.ok.inj (succeeded.symm.trans built)
      have function := (writable.functions.get? listed).2
      cases kind with
      | reachingDefs => exact spelledSolution_compute function entry
      | frontiers => exact spelledSets_frontiers function
      | dominators => exact spelledSets_dominators function
      | constants => exact spelledConstants_endValues function entry
  | frontiers listed => exact spelledSets_frontiers (writable.functions.get? listed).2
  | dominators listed => exact spelledSets_dominators (writable.functions.get? listed).2

end Finding

/-! ### Sorted texts -/

def sortedTexts (texts : List String) : List String := (NameSet.ofNames texts).toList

theorem pairwise_sortedTexts (texts : List String) : (sortedTexts texts).Pairwise (· < ·) :=
  pairwise_lt_toList _

theorem sortedTexts_perm {texts : List String} (distinct : texts.Nodup) :
    (sortedTexts texts).Perm texts :=
  (List.perm_ext_iff_of_nodup (pairwise_sortedTexts texts).nodup distinct).2
    fun text => by rw [sortedTexts, Std.ExtTreeSet.mem_toList, NameSet.mem_ofNames]

theorem sortedTexts_eq {texts : List String} (sorted : texts.Pairwise (· < ·)) :
    sortedTexts texts = texts :=
  (sortedTexts_perm sorted.nodup).eq_of_pairwise
    (fun _ _ _ _ less more => absurd (less.trans more) (lt_irrefl _))
    (pairwise_sortedTexts texts) sorted

theorem toList_foldl_insert_perm {α : Type} {entries : List (String × α)}
    (distinct : (entries.map Prod.fst).Nodup) :
    (entries.foldl (fun m entry => m.insert entry.1 entry.2) (∅ : NameMap α)).toList.Perm
      entries := by
  have holds : ∀ (entries : List (String × α)) (m : NameMap α) (key : String) (value : α),
      (entries.map Prod.fst).Nodup →
      ((entries.foldl (fun m entry => m.insert entry.1 entry.2) m)[key]? = some value ↔
        (key, value) ∈ entries ∨ key ∉ entries.map Prod.fst ∧ m[key]? = some value) := by
    intro entries
    induction entries with
    | nil => simp
    | cons first rest ih =>
      intro m key value distinct
      obtain ⟨fresh, distinct⟩ := List.nodup_cons.1 distinct
      rw [List.foldl_cons, ih _ key value distinct, getElem?_insert_map, List.mem_cons,
        List.map_cons, List.mem_cons, not_or]
      by_cases here : first.1 = key
      · subst here
        have not_later : (first.1, value) ∉ rest := fun later =>
          fresh (List.mem_map.2 ⟨(first.1, value), later, rfl⟩)
        simp only [if_true, Option.some.injEq, not_later, false_or, fresh, not_false_eq_true,
          true_and, not_true, false_and, or_false]
        exact ⟨fun same => same ▸ rfl, fun same => (congrArg Prod.snd same).symm⟩
      · have not_first : (key, value) ≠ first := fun same => here (congrArg Prod.fst same).symm
        simp only [here, if_false, not_first, false_or, Ne.symm here, not_false_eq_true, true_and]
  refine (List.perm_ext_iff_of_nodup ?_ (List.Nodup.of_map _ distinct)).2 fun entry => ?_
  · exact (nodup_keys_toList _).of_map
  · rw [Std.ExtTreeMap.mem_toList_iff_getElem?_eq_some, holds entries ∅ entry.1 entry.2 distinct]
    simp

/-! ### Rows of findings -/

namespace Finding

def sortedRow (row : String × List String) : String × List String := (row.1, sortedTexts row.2)

theorem toList_valueText (value : String × FlatInt) :
    (value.1 ++ " -> " ++ value.2.render).toList =
      value.1.toList ++ ' ' :: ("-> ".toList ++ value.2.render.toList) := by
  simp

theorem pairwise_lt_valueTexts {values : List (String × FlatInt)}
    (names : ∀ value ∈ values, isIdentifier value.1)
    (sorted : values.Pairwise fun value other => value.1 < other.1) :
    (values.map fun value => value.1 ++ " -> " ++ value.2.render).Pairwise (· < ·) := by
  rw [List.pairwise_map]
  refine sorted.imp_of_mem fun {value other} _ member less => ?_
  rw [String.lt_iff_toList_lt, toList_valueText, toList_valueText]
  exact append_space_lt_append_space (String.lt_iff_toList_lt.1 less)
    (beyondSpace_of_isIdentifier (names other member)) _ _

theorem nodup_pointTexts (points : PointSet) : (points.toList.map Point.render).Nodup := by
  refine List.Nodup.map (fun _ _ => Point.eq_of_render) ?_
  exact Std.ExtTreeSet.distinct_toList.imp fun different same =>
    different (Std.compare_eq_iff_eq.2 same)

theorem nodup_keyTexts {α : Type} (m : PointMap α) :
    (m.toList.map fun row => row.1.render).Nodup := by
  have keys := (nodup_keys_toList m).map fun _ _ => Point.eq_of_render
  rwa [List.map_map] at keys

variable {finding : Finding}

/-- The rows of a report are the entries that it keeps, with sorted items. -/
theorem rows_perm_kept (spelled : finding.Spelled) (includeEmpty : Bool) :
    (finding.report includeEmpty).rows.Perm ((finding.kept includeEmpty).map sortedRow) := by
  have sets : ∀ sets : NameMap NameSet, (Report.ofBlockSets sets).rows =
      (sets.toList.map fun row => (row.1, row.2.toList)).map sortedRow := by
    intro sets
    rw [List.map_map]
    refine List.map_congr_left fun row _ => ?_
    exact Prod.ext rfl (sortedTexts_eq (pairwise_lt_toList row.2)).symm
  cases finding with
  | frontiers blocks => exact .of_eq (sets blocks)
  | dominators blocks => exact .of_eq (sets blocks)
  | constants rows =>
    apply List.Perm.of_eq
    simp only [report, Report.ofConstants, Report.rows, kept, entries, List.filter_map,
      List.map_map]
    have empty : ((fun entry : String × List String => includeEmpty || !entry.2.isEmpty) ∘
        fun row : String × List (String × FlatInt) =>
          (row.1, row.2.map fun value => value.1 ++ " -> " ++ value.2.render)) =
        fun row => includeEmpty || !row.2.isEmpty := by
      funext row
      simp only [Function.comp_apply, List.isEmpty_map]
    rw [empty]
    refine List.map_congr_left fun row member => ?_
    have listed := List.mem_of_mem_filter member
    have texts :=
      pairwise_lt_valueTexts (spelled.names row listed) (spelled.names_sorted row listed)
    simp only [Function.comp_apply, List.map_map, sortedRow, sortedTexts_eq texts]
    rfl
  | reachingDefs result =>
    simp only [report, Report.ofReachingDefs, Report.rows, kept, entries, List.filter_map]
    have empty : ((fun entry : String × List String => includeEmpty || !entry.2.isEmpty) ∘
        fun row : Point × PointSet => (row.1.render, row.2.toList.map Point.render)) =
        fun row => includeEmpty || !row.2.isEmpty := by
      funext row
      simp only [Function.comp_apply, List.isEmpty_map, Std.ExtTreeSet.isEmpty_toList]
    rw [empty]
    have keys : ((result.solution.toList.filter fun row => includeEmpty || !row.2.isEmpty).map
        fun row => (row.1.render, NameSet.ofNames (row.2.toList.map Point.render))).map
          Prod.fst |>.Nodup := by
      rw [List.map_map]
      exact (nodup_keyTexts result.solution).sublist (List.filter_sublist.map _)
    have entered := (toList_foldl_insert_perm keys).map fun row => (row.1, row.2.toList)
    rw [List.foldl_map, List.map_map] at entered
    rw [List.map_map]
    exact entered

theorem pairwise_fst_lt_rows (spelled : finding.Spelled) (includeEmpty : Bool) :
    (finding.report includeEmpty).rows.Pairwise fun row other => row.1 < other.1 := by
  cases finding with
  | frontiers sets | dominators sets => exact List.pairwise_map.2 (pairwise_fst_lt_toList sets)
  | reachingDefs result => exact List.pairwise_map.2 (pairwise_fst_lt_toList _)
  | constants rows =>
    exact List.pairwise_map.2 (List.pairwise_map.2 (spelled.blocks_sorted.filter _))

theorem nodup_keys_entries (spelled : finding.Spelled) : (finding.entries.map Prod.fst).Nodup := by
  cases finding with
  | reachingDefs result =>
    rw [entries, List.map_map]
    exact nodup_keyTexts result.solution
  | frontiers sets | dominators sets =>
    rw [entries, List.map_map]
    exact nodup_keys_toList sets
  | constants rows =>
    rw [entries, List.map_map]
    exact (List.pairwise_map.2 spelled.blocks_sorted).nodup

theorem kept_sublist (includeEmpty : Bool) :
    (finding.kept includeEmpty).Sublist finding.entries := by
  cases finding with
  | frontiers _ | dominators _ => exact .refl _
  | reachingDefs _ | constants _ => exact List.filter_sublist

theorem nodup_keys_kept (spelled : finding.Spelled) (includeEmpty : Bool) :
    ((finding.kept includeEmpty).map Prod.fst).Nodup :=
  (nodup_keys_entries spelled).sublist ((kept_sublist includeEmpty).map _)

theorem kept_true : finding.kept true = finding.entries := by
  cases finding with
  | frontiers _ | dominators _ => rfl
  | reachingDefs _ | constants _ => simp [kept]

/-! ### Texts of findings -/

theorem mem_render_const {value : Int32} {c : Char}
    (member : c ∈ (FlatInt.const value).render.toList) : c = '-' ∨ c.isDigit = true := by
  have digits : ∀ n : Nat, c ∈ Nat.toDigits 10 n → c.isDigit = true := fun n inside =>
    Nat.isDigit_of_mem_toDigits (by decide) (by decide) inside
  rw [FlatInt.render, toList_toString_int] at member
  split at member
  · exact (List.mem_cons.1 member).imp_right (digits _)
  · exact .inr (digits _ member)

theorem mem_render_flatInt {value : FlatInt} {c : Char} (member : c ∈ value.render.toList) :
    c = '-' ∨ Token.isWordChar c = true := by
  have bottom_words : ∀ c ∈ "Bottom".toList, Token.isWordChar c = true := by
    simp [Token.isWordChar]
  have top_words : ∀ c ∈ "Top".toList, Token.isWordChar c = true := by simp [Token.isWordChar]
  cases value with
  | bottom => exact .inr (bottom_words c member)
  | top => exact .inr (top_words c member)
  | const value => exact (mem_render_const member).imp_right Token.isWordChar_of_isDigit

/-- Values are written apart: a constant is read back as an integer, and the other two have letters
that no constant has. -/
theorem eq_of_render_flatInt {value other : FlatInt} (same : value.render = other.render) :
    value = other := by
  have bottom_apart (word : Int32) : FlatInt.bottom.render ≠ (FlatInt.const word).render := by
    intro same
    have letter : 'B' ∈ (FlatInt.const word).render.toList := by
      rw [← same]
      simp [FlatInt.render]
    exact absurd (mem_render_const letter) (by decide)
  have top_apart (word : Int32) : FlatInt.top.render ≠ (FlatInt.const word).render := by
    intro same
    have letter : 'T' ∈ (FlatInt.const word).render.toList := by
      rw [← same]
      simp [FlatInt.render]
    exact absurd (mem_render_const letter) (by decide)
  cases value <;> cases other
  case bottom.bottom => rfl
  case bottom.const word => exact absurd same (bottom_apart word)
  case bottom.top => exact absurd same (by decide)
  case const.bottom word => exact absurd same.symm (bottom_apart word)
  case const.const word more =>
    have numbers := congrArg String.toInt? same
    rw [FlatInt.render, FlatInt.render, Int.toString_eq_repr, Int.toString_eq_repr,
      Int.toInt?_repr, Int.toInt?_repr] at numbers
    rw [Int32.toInt_inj.1 (Option.some.inj numbers)]
  case const.top word => exact absurd same.symm (top_apart word)
  case top.bottom => exact absurd same (by decide)
  case top.const word => exact absurd same (top_apart word)
  case top.top => rfl

theorem separable_valueText {value : String × FlatInt} (identifier : isIdentifier value.1) :
    Separable (value.1 ++ " -> " ++ value.2.render) := by
  have chars : ∀ c ∈ (value.1 ++ " -> " ++ value.2.render).toList,
      Token.isWordChar c = true ∨ c = ' ' ∨ c = '-' ∨ c = '>' := by
    intro c member
    rw [String.toList_append, String.toList_append, List.mem_append, List.mem_append] at member
    rcases member with (name | arrow) | number
    · exact .inl (isWordChar_of_isIdentifier identifier c name)
    · have marks : ∀ c ∈ " -> ".toList, c = ' ' ∨ c = '-' ∨ c = '>' := by simp
      exact .inr (marks c arrow)
    · exact (mem_render_flatInt number).symm.imp_right fun dash => .inr (.inl dash)
  refine ⟨fun empty => ?_, fun comma => ?_, fun feed => ?_⟩
  · have space : ' ' ∈ (value.1 ++ " -> " ++ value.2.render).toList := by simp
    rw [empty] at space
    exact absurd space (by decide)
  · exact absurd (chars ',' comma) (by decide)
  · exact absurd (chars '\n' feed) (by decide)

theorem legible_entries (spelled : finding.Spelled) :
    ∀ entry ∈ finding.entries, LegibleRow entry := by
  have sets : ∀ sets : NameMap NameSet, SpelledSets sets →
      ∀ row ∈ sets.toList, LegibleRow (row.1, row.2.toList) := by
    intro sets spelled row listed
    obtain ⟨key, members⟩ := spelled row.1 row.2
      (Std.ExtTreeMap.mem_toList_iff_getElem?_eq_some.1 listed)
    exact ⟨beyondSpace_of_isIdentifier key, fun member inside =>
      separable_of_isIdentifier (members member (Std.ExtTreeSet.mem_toList.1 inside))⟩
  cases finding with
  | frontiers blocks | dominators blocks => exact List.forall_mem_map.2 (sets blocks spelled)
  | reachingDefs result =>
    refine List.forall_mem_map.2 fun row listed => ?_
    obtain ⟨key, members⟩ := spelled row.1 row.2
      (Std.ExtTreeMap.mem_toList_iff_getElem?_eq_some.1 listed)
    exact ⟨Point.beyondSpace_render key, List.forall_mem_map.2 fun point inside =>
      Point.separable_render (members point (Std.ExtTreeSet.mem_toList.1 inside))⟩
  | constants rows =>
    refine List.forall_mem_map.2 fun row listed => ?_
    refine ⟨beyondSpace_of_isIdentifier (spelled.blocks row listed),
      List.forall_mem_map.2 fun value inside => ?_⟩
    exact separable_valueText (spelled.names row listed value inside)

theorem legible_sortedRow {row : String × List String} (legible : LegibleRow row) :
    LegibleRow (sortedRow row) :=
  ⟨legible.key, fun item listed => legible.items item ((NameSet.mem_ofNames row.2 item).1
    (Std.ExtTreeSet.mem_toList.1 listed))⟩

/-- Lines give back the rows of a report. -/
theorem legible_rows (spelled : finding.Spelled) (includeEmpty : Bool) :
    ∀ row ∈ (finding.report includeEmpty).rows, LegibleRow row := by
  intro row listed
  obtain ⟨entry, held, rfl⟩ := List.mem_map.1 ((rows_perm_kept spelled includeEmpty).subset listed)
  exact legible_sortedRow
    (legible_entries spelled entry ((kept_sublist includeEmpty).subset held))

theorem nodup_items_entries (spelled : finding.Spelled) :
    ∀ entry ∈ finding.entries, entry.2.Nodup := by
  cases finding with
  | frontiers sets | dominators sets =>
    exact List.forall_mem_map.2 fun row _ => (pairwise_lt_toList row.2).nodup
  | reachingDefs result => exact List.forall_mem_map.2 fun row _ => nodup_pointTexts row.2
  | constants rows =>
    exact List.forall_mem_map.2 fun row listed =>
      (pairwise_lt_valueTexts (spelled.names row listed) (spelled.names_sorted row listed)).nodup

/-! ### What text reports show -/

/-- One line for each entry: the only one that starts with its key, with its items in order. -/
structure ShowsEach (lines : List String) (entries : List (String × List String)) : Prop where
  keys : (entries.map Prod.fst).Nodup
  length : lines.length = entries.length
  line : ∀ entry ∈ entries, ∃ items : List String, items.Perm entry.2 ∧ items.Pairwise (· < ·) ∧
    ∀ line, line ∈ lines ∧ rowStart entry.1 <+: line.toList ↔ line = rowLine entry.1 items

theorem showsEach_lines (spelled : finding.Spelled) (includeEmpty : Bool) :
    ShowsEach (finding.report includeEmpty).lines (finding.kept includeEmpty) := by
  have rows := rows_perm_kept spelled includeEmpty
  have legible := legible_rows spelled includeEmpty
  refine ⟨nodup_keys_kept spelled includeEmpty, ?_, fun entry held => ?_⟩
  · rw [Report.lines_eq, List.length_map, rows.length_eq, List.length_map]
  · have listed := (kept_sublist includeEmpty).subset held
    have row_listed := rows.symm.subset (List.mem_map_of_mem (f := sortedRow) held)
    refine ⟨sortedTexts entry.2, sortedTexts_perm (nodup_items_entries spelled entry listed),
      pairwise_sortedTexts entry.2, fun line => ⟨?_, ?_⟩⟩
    · rintro ⟨member, starts⟩
      rw [Report.lines_eq] at member
      obtain ⟨row, in_rows, rfl⟩ := List.mem_map.1 member
      obtain ⟨shown, shown_held, rfl⟩ := List.mem_map.1 (rows.subset in_rows)
      have key := (rowStart_isPrefix_iff (legible_entries spelled entry listed).key
        (legible _ in_rows).key _).1 starts
      rw [show shown = entry from List.inj_on_of_nodup_map (nodup_keys_kept spelled includeEmpty)
        shown_held held key.symm]
      rfl
    · rintro rfl
      have key := (legible _ row_listed).key
      refine ⟨?_, (rowStart_isPrefix_iff key key _).2 rfl⟩
      rw [Report.lines_eq]
      exact List.mem_map.2 ⟨_, row_listed, rfl⟩

/-! ### Results given back by their rows -/

theorem mem_iff_mem_texts (points : PointSet) (point : Point) :
    point ∈ points ↔ point.render ∈ NameSet.ofNames (points.toList.map Point.render) := by
  rw [NameSet.mem_ofNames, List.mem_map]
  constructor
  · exact fun member => ⟨point, Std.ExtTreeSet.mem_toList.2 member, rfl⟩
  · rintro ⟨other, member, same⟩
    exact Point.eq_of_render same ▸ Std.ExtTreeSet.mem_toList.1 member

theorem eq_of_sortedRow_points {row other : Point × PointSet}
    (same : sortedRow (row.1.render, row.2.toList.map Point.render) =
      sortedRow (other.1.render, other.2.toList.map Point.render)) : row = other := by
  obtain ⟨key, items⟩ := Prod.mk.inj same
  have texts := Std.ExtTreeSet.toList_inj.1 items
  refine Prod.ext (Point.eq_of_render key) (Std.ExtTreeSet.ext_mem fun point => ?_)
  rw [mem_iff_mem_texts, texts, ← mem_iff_mem_texts]

theorem solution_eq_of_rows {result other : ReachingDefs}
    (spelled : (reachingDefs result).Spelled) (other_spelled : (reachingDefs other).Spelled)
    (same : ((reachingDefs result).report true).rows = ((reachingDefs other).report true).rows) :
    result.solution = other.solution := by
  have rows := rows_perm_kept spelled true
  rw [same] at rows
  have entries_perm := rows.symm.trans (rows_perm_kept other_spelled true)
  simp only [kept_true, entries, List.map_map] at entries_perm
  exact Std.ExtTreeMap.ext_toList
    ((List.map_perm_map_iff fun _ _ => eq_of_sortedRow_points).1 entries_perm)

theorem sets_eq_of_rows {sets others : NameMap NameSet}
    (same : (Report.ofBlockSets sets).rows = (Report.ofBlockSets others).rows) : sets = others := by
  refine Std.ExtTreeMap.toList_inj.1 (List.map_injective_iff.2 ?_ same)
  intro row other same
  obtain ⟨key, members⟩ := Prod.mk.inj same
  exact Prod.ext key (Std.ExtTreeSet.toList_inj.1 members)

theorem eq_of_valueText {value other : String × FlatInt} (identifier : isIdentifier value.1)
    (other_identifier : isIdentifier other.1)
    (same : value.1 ++ " -> " ++ value.2.render = other.1 ++ " -> " ++ other.2.render) :
    value = other := by
  have letters := congrArg String.toList same
  rw [toList_valueText, toList_valueText] at letters
  obtain ⟨name, behind⟩ := append_cons_inj
    ((beyondSpace_of_isIdentifier identifier).not_mem (by decide))
    ((beyondSpace_of_isIdentifier other_identifier).not_mem (by decide)) letters
  exact Prod.ext (String.toList_inj.1 name)
    (eq_of_render_flatInt (String.toList_inj.1 (List.append_cancel_left behind)))

theorem constants_eq_of_rows {found others : List (String × List (String × FlatInt))}
    (spelled : SpelledConstants found) (other_spelled : SpelledConstants others)
    (same : ((constants found).report true).rows = ((constants others).report true).rows) :
    found = others := by
  have everything : ∀ found : List (String × List (String × FlatInt)),
      ((constants found).report true).rows = (constants found).entries := by
    intro found
    simp [report, Report.ofConstants, Report.rows, entries]
  rw [everything, everything] at same
  refine eq_of_map_eq_map (P := fun row => ∀ value ∈ row.2, isIdentifier value.1) ?_ spelled.names
    other_spelled.names same
  intro row other names other_names same
  obtain ⟨block, values⟩ := Prod.mk.inj same
  exact Prod.ext block (eq_of_map_eq_map (fun _ _ => eq_of_valueText) names other_names values)

theorem same_of_rows {other : Finding} (spelled : finding.Spelled) (other_spelled : other.Spelled)
    (kind : finding.kind = other.kind)
    (same : (finding.report true).rows = (other.report true).rows) : finding.Same other := by
  cases finding <;> cases other <;> first | contradiction | skip
  case reachingDefs => exact solution_eq_of_rows spelled other_spelled same
  case frontiers => exact sets_eq_of_rows same
  case dominators => exact sets_eq_of_rows same
  case constants => exact constants_eq_of_rows spelled other_spelled same

/-- Points are told apart by their texts, whatever their blocks are called. The lines of what is
found in a loaded program are in increasing order, one for each entry that is kept, and the text of
a report that keeps empty rows tells what was found from all else that this kind of analysis finds
in loaded programs. -/
theorem text_report_faithful :
    (∀ p q : Point, p.render = q.render → p = q) ∧
    ∀ (source : String) (finding : Finding), finding.In (Program.load source).1 →
      (∀ includeEmpty, (finding.report includeEmpty).lines.Pairwise (· < ·) ∧
        ShowsEach (finding.report includeEmpty).lines (finding.kept includeEmpty)) ∧
      ∀ (otherSource : String) (other : Finding), other.In (Program.load otherSource).1 →
        finding.kind = other.kind →
        (finding.report true).render .text = (other.report true).render .text →
        finding.Same other := by
  refine ⟨fun _ _ => Point.eq_of_render, fun source finding found => ⟨fun includeEmpty => ?_, ?_⟩⟩
  · exact ⟨Report.pairwise_lt_lines (legible_rows found.spelled includeEmpty)
      (pairwise_fst_lt_rows found.spelled includeEmpty), showsEach_lines found.spelled includeEmpty⟩
  · intro otherSource other other_found kind same
    exact same_of_rows found.spelled other_found.spelled kind
      (Report.eq_rows_of_render (legible_rows found.spelled true)
        (legible_rows other_found.spelled true) same)

/-- Changes a number eleven times, so its points have numbers of one and of two digits. -/
def countingSource (down : Bool) : String := "\n".intercalate (
  ["fn count(n: int) -> int \x7b", "entry:"] ++
    List.replicate 11 (if down then "n = $arith sub n 1" else "n = $arith add n 1") ++
    ["$ret n", "\x7d"])

def countingFunction (down : Bool) : Function where
  name := "count"
  params := [⟨"n", .int⟩]
  result := some .int
  locals := .empty
  blocks := .ofList [("entry", ⟨"entry",
    (List.range 11).map (fun index =>
        .op "entry" index (.arith "n" (if down then .sub else .add) (.var "n") (.const 1))) ++
      [.term "entry" (.ret (some (.var "n")))]⟩)]

theorem load_countingSource (down : Bool) :
    (Program.load (countingSource down)).1 = Program.empty.define (countingFunction down) := by
  cases down <;> decide +kernel

/-- The row of the tenth point comes before that of the second, the first point has no row, and the
definitions are the same whether one is added or subtracted. -/
theorem text_report_faithful_countingSource :
    ∃ added subtracted,
      Context.build (Program.load (countingSource false)).1 "count" = .ok added ∧
      Context.build (Program.load (countingSource true)).1 "count" = .ok subtracted ∧
      ((ofContext added .reachingDefs).report false).lines =
        ["entry.1 -> \x7bentry.0\x7d", "entry.10 -> \x7bentry.9\x7d", "entry.2 -> \x7bentry.1\x7d",
          "entry.3 -> \x7bentry.2\x7d", "entry.4 -> \x7bentry.3\x7d", "entry.5 -> \x7bentry.4\x7d",
          "entry.6 -> \x7bentry.5\x7d", "entry.7 -> \x7bentry.6\x7d", "entry.8 -> \x7bentry.7\x7d",
          "entry.9 -> \x7bentry.8\x7d", "entry.term -> \x7bentry.10\x7d"] ∧
      ShowsEach ((ofContext added .reachingDefs).report false).lines
        ((ofContext added .reachingDefs).kept false) ∧
      ((ofContext added .reachingDefs).report true).render .text =
        ((ofContext subtracted .reachingDefs).report true).render .text ∧
      (ofContext added .reachingDefs).Same (ofContext subtracted .reachingDefs) := by
  have built : ∀ down : Bool, Context.build (Program.load (countingSource down)).1 "count" =
      .ok (.ofFunction (Program.empty.define (countingFunction down)) (countingFunction down)) := by
    intro down
    rw [load_countingSource]
    apply Context.build_eq_ok <;> cases down <;> decide +kernel
  have same : ((ofContext (.ofFunction (Program.empty.define (countingFunction false))
        (countingFunction false)) .reachingDefs).report true).render .text =
      ((ofContext (.ofFunction (Program.empty.define (countingFunction true))
        (countingFunction true)) .reachingDefs).report true).render .text := by
    decide +kernel
  obtain ⟨shown, apart⟩ := text_report_faithful.2 (countingSource false) _
    (.context (built false) .reachingDefs)
  exact ⟨_, _, built false, built true, by decide +kernel, (shown false).2, same,
    apart (countingSource true) _ (.context (built true) .reachingDefs) rfl same⟩

end Finding

end Lir
