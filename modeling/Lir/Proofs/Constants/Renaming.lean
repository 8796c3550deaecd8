import Lir.Proofs.Constants.Alike
import Lir.Proofs.Constants.Monotone
import Lir.Proofs.Reaching.Exact
import Lir.Proofs.Renaming
import Lir.Proofs.Source.Built
import Mathlib.Logic.Equiv.Basic

/-!
When constants depend on how blocks are named.

The names of blocks decide in which order they are visited. A read of a name that some paths give a
value and others do not gets any value or the given one, according to which of the paths have been
followed when the block is visited, and a later visit does not take back what the read has made of
it. If the paths to every such read agree, all states on the way are below the solution under any
names, so the solutions are equal.
-/

set_option autoImplicit false

namespace Lir

namespace Constants

open Analysis

/-! ### Paths -/

def along (ctx : Context) (left : List String) (before : List Instruction) : ConstEnv :=
  (analysis ctx).transferAll (ctx.function.executed left ++ before) (start ctx)

/-- Where a name is read that is not declared, every path has given it a value if one has. -/
def ReadsSettled (ctx : Context) : Prop :=
  ∀ left other name block before inst after var,
    ctx.graph.Path entryName left name → ctx.graph.Path entryName other name →
    ctx.function.blocks.get? name = some block → block.instructions = before ++ inst :: after →
    var ∈ readValues ctx inst → ctx.typeOf? var = none →
    var ∈ along ctx left before → var ∈ along ctx other before

theorem along_append (ctx : Context) (left : List String) (before : List Instruction) :
    along ctx left before = (analysis ctx).transferAll before (along ctx left []) := by
  unfold along transferAll
  rw [List.append_nil, List.foldl_append]

theorem along_concat (ctx : Context) (left : List String) {name : String} {block : Block}
    (listed : ctx.function.blocks.get? name = some block) :
    along ctx (left ++ [name]) [] = (analysis ctx).transferBlock block (along ctx left []) := by
  have whole := along_append ctx left block.instructions
  unfold along at whole ⊢
  rw [Function.executed_concat _ _ listed, List.append_nil]
  exact whole

variable {p : Program} {f : Function}

theorem mem_along_of_declared {left other : List String} {before : List Instruction} {var : String}
    {ty : Ty} (declared : (Context.ofFunction p f).typeOf? var = some ty)
    (member : var ∈ along (.ofFunction p f) left before) :
    var ∈ along (.ofFunction p f) other before := by
  have tracked := (tracked_start p f).transferAll _ var member
  obtain ⟨v, listed, type⟩ := Option.map_eq_some_iff.1 declared
  have isInt : v.ty.isInt = true := by
    rw [tracks, declared] at tracked
    exact type ▸ tracked
  have first : var ∈ start (.ofFunction p f) :=
    (mem_map_iff _ var).2 ⟨_, getElem?_start_of_isInt listed isInt⟩
  exact mem_transferAll_of_mem first _

/-- A state at the start of a block that follows all that some path follows, and nothing that no
path does. -/
structure Between (ctx : Context) (name : String) (s : ConstEnv) : Prop where
  least : ∃ left, ctx.graph.Path entryName left name ∧ ∀ var ∈ along ctx left [], var ∈ s
  most : ∀ var ∈ s, ∃ left, ctx.graph.Path entryName left name ∧ var ∈ along ctx left []

theorem between_start (ctx : Context) : Between ctx entryName (start ctx) where
  least := ⟨[], .start, fun _ member => member⟩
  most _ member := ⟨[], .start, member⟩

theorem Between.transferBlock {ctx : Context} {name target : String} {s : ConstEnv} {block : Block}
    (between : Between ctx name s) (listed : ctx.function.blocks.get? name = some block)
    (edge : target ∈ ctx.graph.successors name) :
    Between ctx target ((analysis ctx).transferBlock block s) := by
  obtain ⟨first, to_name, follows⟩ := between.least
  constructor
  · refine ⟨first ++ [name], to_name.step edge, fun var member => ?_⟩
    rw [along_concat ctx first listed] at member
    exact mem_transferAll_mono follows member
  · intro var member
    rcases mem_transferAll_cases member with always | ⟨source, followed, later⟩
    · refine ⟨first ++ [name], to_name.step edge, ?_⟩
      rw [along_concat ctx first listed]
      exact always _
    · obtain ⟨left, path, given⟩ := between.most source followed
      refine ⟨left ++ [name], path.step edge, ?_⟩
      rw [along_concat ctx left listed]
      exact later _ given

theorem Between.join {ctx : Context} {name : String} {s t : ConstEnv} (first : Between ctx name s)
    (second : Between ctx name t) : Between ctx name (Lir.join s t) := by
  constructor
  · obtain ⟨left, path, follows⟩ := first.least
    exact ⟨left, path, fun var member => (below_join_left s t).mem (follows var member)⟩
  · intro var member
    rw [mem_map_iff, getElem?_join] at member
    cases old : s[var]? with
    | some value => exact first.most var ((mem_map_iff s var).2 ⟨value, old⟩)
    | none =>
      rw [old, Option.merge_none_left] at member
      exact second.most var ((mem_map_iff t var).2 member)

/-- If reads are settled, what a block makes of a state grows with the state. -/
theorem Between.transferBlock_mono {name : String} {block : Block} {s t : ConstEnv}
    (settled : ReadsSettled (.ofFunction p f)) (listed : f.blocks.get? name = some block)
    (first : Between (.ofFunction p f) name s) (second : Between (.ofFunction p f) name t)
    (below : Below s t) :
    Below ((analysis (.ofFunction p f)).transferBlock block s)
      ((analysis (.ofFunction p f)).transferBlock block t) := by
  refine transferAll_mono below fun before inst after parts var read member => ?_
  rcases mem_transferAll_cases member with always | ⟨source, followed, later⟩
  · exact always s
  · -- Some path gives the name a value, so the path whose names are all in `s` does as well.
    obtain ⟨left, path, given⟩ := second.most source followed
    obtain ⟨other, other_path, follows⟩ := first.least
    have on_path : var ∈ along (.ofFunction p f) left before := by
      rw [along_append]
      exact later _ given
    have on_other : var ∈ along (.ofFunction p f) other before := by
      cases type : (Context.ofFunction p f).typeOf? var with
      | some ty => exact mem_along_of_declared type on_path
      | none =>
        exact settled left other name block before inst after var path other_path listed parts read
          type on_path
    rw [along_append] at on_other
    exact mem_transferAll_mono follows on_other

theorem readsSettled_of_assigned {ctx : Context}
    (assigned : ∀ entry ∈ ctx.function.blocks.entries,
      ∀ number ∈ List.range entry.2.instructions.length,
      ∀ inst ∈ entry.2.instructions[number]?, ∀ var ∈ readValues ctx inst,
        ctx.typeOf? var = none →
        var ∈ (analysis ctx).transferAll (entry.2.instructions.take number) ∅) :
    ReadsSettled ctx := by
  intro left other name block before inst after var _ _ listed parts read undeclared _
  have given := assigned (name, block) ((Table.get?_eq_some_iff _ _ _).1 listed) before.length
    (by simp [parts]) inst (by simp [parts]) var read undeclared
  rw [along_append]
  have none_followed : ∀ var ∈ (∅ : ConstEnv), var ∈ along ctx other [] := fun _ followed =>
    absurd followed Std.ExtTreeMap.not_mem_empty
  apply mem_transferAll_mono none_followed
  rwa [parts, List.take_left] at given

/-! ### The same function under other names -/

/-- A context that is another one with its blocks renamed, as far as values go. -/
structure Renames (rename : String → String) (base ctx : Context) : Prop where
  entry : rename entryName = entryName
  apart : ∀ name other, base.function.blocks.contains name = true →
    base.function.blocks.contains other = true → rename name = rename other → name = other
  start : start ctx = start base
  block : ∀ name block, base.function.blocks.get? name = some block →
    ∃ renamed, ctx.function.blocks.get? (rename name) = some renamed ∧ ∀ s,
      (analysis ctx).transferBlock renamed s = (analysis base).transferBlock block s
  edge : ∀ name target, base.function.blocks.contains name = true →
    (target ∈ ctx.graph.successors (rename name) ↔
      ∃ old ∈ base.graph.successors name, target = rename old)

theorem renames_self (ctx : Context) : Renames id ctx ctx where
  entry := rfl
  apart _ _ _ _ same := same
  start := rfl
  block _ block listed := ⟨block, listed, fun _ => rfl⟩
  edge name target _ := by simp

namespace Renames

variable {rename other : String → String} {base ctx twin : Context}

theorem contains (entry : base.function.blocks.contains entryName = true) {name : String}
    (reached : base.graph.Reaches name) : base.function.blocks.contains name = true := by
  obtain ⟨block, listed⟩ := Function.exists_block entry reached
  exact (Table.contains_eq_true_iff _ _).2 ⟨block, listed⟩

theorem entry_contains (renames : Renames rename base ctx)
    (entry : base.function.blocks.contains entryName = true) :
    ctx.function.blocks.contains entryName = true := by
  obtain ⟨block, listed⟩ := (Table.contains_eq_true_iff _ _).1 entry
  obtain ⟨renamed, found, _⟩ := renames.block entryName block listed
  rw [renames.entry] at found
  exact (Table.contains_eq_true_iff _ _).2 ⟨renamed, found⟩

theorem reaches (renames : Renames rename base ctx)
    (entry : base.function.blocks.contains entryName = true) {name : String}
    (reached : base.graph.Reaches name) : ctx.graph.Reaches (rename name) := by
  apply reached.induction (motive := fun name => ctx.graph.Reaches (rename name))
  · rw [renames.entry]
    exact .entry
  · intro source target source_reached renamed edge
    exact renamed.step ((renames.edge source _ (contains entry source_reached)).2 ⟨target, edge, rfl⟩)

theorem exists_of_reaches (renames : Renames rename base ctx)
    (entry : base.function.blocks.contains entryName = true) {name : String}
    (reached : ctx.graph.Reaches name) : ∃ old, base.graph.Reaches old ∧ name = rename old := by
  apply reached.induction (motive := fun name => ∃ old, base.graph.Reaches old ∧ name = rename old)
  · exact ⟨entryName, .entry, renames.entry.symm⟩
  · rintro source target _ ⟨old, old_reached, rfl⟩ edge
    obtain ⟨next, leads, rfl⟩ := (renames.edge old target (contains entry old_reached)).1 edge
    exact ⟨next, old_reached.step leads, rfl⟩

/-- What holds of the base at its start, along its edges and of joins, holds under the old names of
every state that is found under the new names. -/
theorem pre_induction (renames : Renames rename base ctx)
    (entry : base.function.blocks.contains entryName = true) {motive : String → ConstEnv → Prop}
    (first : motive entryName (Constants.start base))
    (follow : ∀ name block s target, base.graph.Reaches name →
      base.function.blocks.get? name = some block → target ∈ base.graph.successors name →
      motive name s → motive target ((analysis base).transferBlock block s))
    (joined : ∀ name s t, motive name s → motive name t → motive name (join s t))
    {name : String} (reached : base.graph.Reaches name) {s : ConstEnv}
    (found : (solve ctx).pre[rename name]? = some s) : motive name s := by
  have all := search_pre_induction (a := analysis ctx) (f := ctx.function)
    (motive := fun renamed s => ∀ name, base.graph.Reaches name → rename name = renamed →
      motive name s)
    (renames.entry_contains entry) ?_ ?_ ?_ (height ctx) (rename name) s found
  · exact all name reached rfl
  · intro name reached same
    obtain rfl := renames.apart name entryName (contains entry reached) entry
      (same.trans renames.entry.symm)
    exact (congrArg (motive entryName) renames.start).mpr first
  · intro source renamed_block s target source_reached listed edge holds name reached same
    obtain ⟨old, old_reached, rfl⟩ := renames.exists_of_reaches entry source_reached
    obtain ⟨next, leads, rfl⟩ := (renames.edge old target (contains entry old_reached)).1 edge
    obtain rfl := renames.apart name next (contains entry reached)
      (contains entry (old_reached.step leads)) same
    obtain ⟨block, old_listed⟩ := Function.exists_block entry old_reached
    obtain ⟨renamed, found, effect⟩ := renames.block old block old_listed
    obtain rfl := Option.some.inj (found.symm.trans listed)
    rw [effect]
    exact follow old block s name old_reached old_listed leads (holds old old_reached rfl)
  · intro renamed s t first second name reached same
    exact joined name s t (first name reached same) (second name reached same)

theorem between_pre (renames : Renames rename base ctx)
    (entry : base.function.blocks.contains entryName = true) {name : String}
    (reached : base.graph.Reaches name) {s : ConstEnv}
    (found : (solve ctx).pre[rename name]? = some s) : Between base name s :=
  renames.pre_induction entry (between_start base)
    (fun _ _ _ _ _ listed edge between => between.transferBlock listed edge)
    (fun _ _ _ first second => first.join second) reached found

/-- Every state found under some names is below the solution under others. -/
theorem below_pre (renames : Renames rename (.ofFunction p f) ctx)
    (renames_twin : Renames other (.ofFunction p f) twin)
    (entry : f.blocks.contains entryName = true) (settled : ReadsSettled (.ofFunction p f))
    (solved : Solved (analysis twin) twin.function (solve twin)) {name : String}
    (reached : f.graph.Reaches name) {s t : ConstEnv}
    (found : (solve ctx).pre[rename name]? = some s)
    (twin_found : (solve twin).pre[other name]? = some t) : Below s t := by
  refine (renames.pre_induction entry (motive := fun name s => Between (.ofFunction p f) name s ∧
    ∀ t, (solve twin).pre[other name]? = some t → Below s t) ⟨between_start _, ?_⟩ ?_ ?_ reached
    found).2 t twin_found
  · intro t found
    obtain ⟨state, at_entry, taken_in⟩ := solved.entry
    rw [renames_twin.entry, at_entry] at found
    cases found
    rw [← renames_twin.start]
    exact taken_in
  · rintro name block s target name_reached listed edge ⟨between, below⟩
    refine ⟨between.transferBlock listed edge, fun t found => ?_⟩
    have twin_reached : twin.graph.Reaches (other name) := renames_twin.reaches entry name_reached
    obtain ⟨before, at_name⟩ := (mem_map_iff _ _).1 ((solved.mem_pre (other name)).2 twin_reached)
    obtain ⟨renamed, twin_listed, effect⟩ := renames_twin.block name block listed
    have at_end := solved.block _ renamed before twin_listed at_name
    have twin_edge : other target ∈ twin.graph.successors (other name) :=
      (renames_twin.edge name _ (contains entry name_reached)).2 ⟨target, edge, rfl⟩
    have passed : Below _ t := solved.edge _ _ _ t twin_edge at_end found
    rw [effect] at passed
    have twin_between := renames_twin.between_pre entry name_reached at_name
    exact (between.transferBlock_mono settled listed twin_between (below before at_name)).trans passed
  · rintro name s t ⟨between, below⟩ ⟨other_between, other_below⟩
    exact ⟨between.join other_between, fun u found => (below u found).join (other_below u found)⟩

end Renames

theorem Renames.post_eq {rename : String → String} {ctx : Context}
    (renames : Renames rename (.ofFunction p f) ctx) (entry : f.blocks.contains entryName = true)
    (settled : ReadsSettled (.ofFunction p f))
    (solved_ctx : Solved (analysis ctx) ctx.function (solve ctx)) {name : String}
    (present : f.blocks.contains name = true) :
    (solve ctx).post[rename name]? = (solve (.ofFunction p f)).post[name]? := by
  have solved_base : Solved (analysis (.ofFunction p f)) f (solve (.ofFunction p f)) := solved p entry
  by_cases reached : f.graph.Reaches name
  · obtain ⟨s, found⟩ := (mem_map_iff _ _).1 ((solved_base.mem_pre name).2 reached)
    obtain ⟨t, renamed_found⟩ :=
      (mem_map_iff _ _).1 ((solved_ctx.mem_pre (rename name)).2 (renames.reaches entry reached))
    have same : t = s := by
      apply Below.antisymm
      · exact renames.below_pre (renames_self _) entry settled solved_base reached renamed_found found
      · exact (renames_self _).below_pre renames entry settled solved_ctx reached found renamed_found
    obtain ⟨block, listed⟩ := (Table.contains_eq_true_iff _ _).1 present
    obtain ⟨renamed, renamed_listed, effect⟩ := renames.block name block listed
    rw [solved_ctx.block _ renamed t renamed_listed renamed_found,
      solved_base.block name block s listed found, effect, same]
  · have missing : name ∉ (solve (.ofFunction p f)).post := fun member =>
      reached ((solved_base.mem_post name).1 member)
    have renamed_missing : rename name ∉ (solve ctx).post := by
      intro member
      obtain ⟨old, old_reached, same⟩ :=
        renames.exists_of_reaches entry ((solved_ctx.mem_post _).1 member)
      have is_old := renames.apart name old present (contains entry old_reached) same
      exact reached (is_old ▸ old_reached)
    rw [Std.ExtTreeMap.getElem?_eq_none missing, Std.ExtTreeMap.getElem?_eq_none renamed_missing]

theorem renames_renameBlocks {q : Program} {rename : String → String} (keeps : f.KeepsApart rename)
    (alike : p.Alike q) (wellFormed : f.WellFormed) :
    Renames rename (.ofFunction p f) (.ofFunction q (f.renameBlocks rename)) where
  entry := keeps.entry
  apart name other present other_present same :=
    keeps.apart other ((Table.contains_iff_mem_keys _ _).1 other_present) name
      (.inl ((Table.contains_iff_mem_keys _ _).1 present)) same
  start := (start_eq (Context.sameMemory alike keeps.sameAddresses)).symm
  edge name target present := keeps.mem_successors_graph present target
  block name block listed := by
    have same := (Context.sameMemory alike keeps.sameAddresses).symm
    refine ⟨block.renameBlocks rename, keeps.get?_renameBlocks listed, fun s => ?_⟩
    unfold transferBlock transferAll Block.renameBlocks
    rw [List.foldl_map]
    apply List.foldl_ext
    intro s inst inside
    have member := (f.mem_instructions inst).2 ⟨name, block, listed, inside⟩
    have renamed : inst.renameBlocks rename ∈ (f.renameBlocks rename).instructions := by
      rw [keeps.instructions_renameBlocks]
      exact List.mem_map_of_mem member
    cases inst with
    | term owner terminator => rfl
    | op owner index operation =>
      have effect : ∀ t, transfer (.ofFunction q (f.renameBlocks rename))
          (.op (rename owner) index (operation.renameBlocks rename)) t =
          transfer (.ofFunction q (f.renameBlocks rename)) (.op (rename owner) index operation) t := by
        intro t
        cases operation <;> rfl
      refine (effect s).trans (transfer_eq same _ _ index index operation ?_ s)
      rintro site rfl
      exact (Context.clobbered_eq_of_alike alike keeps.sameAddresses wellFormed
        (keeps.wellFormed wellFormed) member renamed rfl rfl rfl rfl).symm

/-! ### Reports -/

theorem lookup_eq_some_iff {α : Type} {rows : List (String × α)} (nodup : (rows.map Prod.fst).Nodup)
    (name : String) (value : α) : rows.lookup name = some value ↔ (name, value) ∈ rows := by
  induction rows with
  | nil => simp
  | cons row rest ih =>
    obtain ⟨fresh, distinct⟩ := List.nodup_cons.1 nodup
    rw [List.lookup_cons, List.mem_cons]
    by_cases here : name = row.1
    · have absent : ∀ value, (row.1, value) ∉ rest := fun value member =>
        fresh (List.mem_map.2 ⟨_, member, rfl⟩)
      subst here
      simp [absent, Prod.ext_iff, eq_comm]
    · have other : (name == row.1) = false := beq_false_of_ne here
      simp [other, ih distinct, here, Prod.ext_iff]

theorem lookup_endValues (ctx : Context) (found : Fixpoint ConstEnv) {name : String} {block : Block}
    (listed : ctx.function.blocks.get? name = some block) :
    (endValues ctx found).lookup name = found.post[name]?.map (knownValues block) := by
  have nodup : ((endValues ctx found).map Prod.fst).Nodup := by
    unfold endValues
    rw [List.map_map]
    exact nodup_keys_toList found.post
  apply Option.ext
  intro values
  rw [lookup_eq_some_iff nodup, endValues, List.mem_map, Option.map_eq_some_iff]
  constructor
  · rintro ⟨⟨key, state⟩, member, same⟩
    cases same
    rw [listed]
    exact ⟨state, Std.ExtTreeMap.mem_toList_iff_getElem?_eq_some.1 member, rfl⟩
  · rintro ⟨state, at_end, rfl⟩
    refine ⟨(name, state), Std.ExtTreeMap.mem_toList_iff_getElem?_eq_some.2 at_end, ?_⟩
    rw [listed]

theorem knownValues_renameBlocks (rename : String → String) (block : Block) :
    knownValues (block.renameBlocks rename) = knownValues block := by
  have names : mentioned (block.renameBlocks rename) = mentioned block := by
    unfold mentioned Block.renameBlocks
    rw [List.flatMap_map]
    simp only [Instruction.mentions_renameBlocks]
  funext state
  unfold knownValues
  rw [names]

/-- Where all paths to a read of an undeclared name agree on whether it has a value, the constants
reported for a block are the same under any names of the blocks. -/
theorem lookup_endValues_renameBlocks {source name : String} {f : Function}
    {rename : String → String} (listed : (Program.load source).1.functions.get? name = some f)
    (entry : f.blocks.contains entryName = true) (keeps : f.KeepsApart rename)
    (settled : ReadsSettled (.ofFunction (Program.load source).1 f)) :
    ∃ ctx renamed, Context.build (Program.load source).1 name = .ok ctx ∧
      Context.build ((Program.load source).1.define (f.renameBlocks rename)) name = .ok renamed ∧
      ∀ block ∈ f.blocks.keys, (endValues renamed (solve renamed)).lookup (rename block) =
        (endValues ctx (solve ctx)).lookup block := by
  have named : f.name = name := ((Program.writable_load source).functions.get? listed).1
  have wellFormed := Program.wellFormed_load listed
  have alike : (Program.load source).1.Alike
      ((Program.load source).1.define (f.renameBlocks rename)) :=
    Program.alike_define (f := f) (named.symm ▸ listed) rfl
  have renames := renames_renameBlocks keeps alike wellFormed
  have renamed_entry : (f.renameBlocks rename).blocks.contains entryName = true :=
    renames.entry_contains entry
  have renamed_listed : ((Program.load source).1.define (f.renameBlocks rename)).functions.get? name =
      some (f.renameBlocks rename) := by
    change ((Program.load source).1.functions.insert f.name _).get? name = _
    rw [Table.get?_insert, if_pos named]
  refine ⟨_, _, Context.build_eq_ok listed entry, Context.build_eq_ok renamed_listed renamed_entry,
    fun block member => ?_⟩
  have present := (Table.contains_iff_mem_keys _ _).2 member
  obtain ⟨inside, block_listed⟩ := (Table.contains_eq_true_iff _ _).1 present
  rw [lookup_endValues _ _ (keeps.get?_renameBlocks block_listed), lookup_endValues _ _ block_listed,
    knownValues_renameBlocks, renames.post_eq entry settled (solved _ renamed_entry) present]

def oneSidedFunction : Function where
  name := "test"
  params := [⟨"c", .int⟩]
  result := none
  locals := .ofList [("x", .int)]
  blocks := .ofList [
    ("entry", ⟨"entry", [.term "entry" (.branch (.var "c") "a" "m")]⟩),
    ("a", ⟨"a", [.op "a" 0 (.copy "u" (.const 1)), .term "a" (.jump "m")]⟩),
    ("m", ⟨"m", [.op "m" 0 (.copy "x" (.var "u")), .term "m" (.jump "z")]⟩),
    ("z", ⟨"z", [.term "z" (.ret (some (.var "x")))]⟩)]

def steppingFunction : Function where
  name := "count"
  params := [⟨"n", .int⟩]
  result := some .int
  locals := .ofList [("i", .int)]
  blocks := .ofList [
    ("entry", ⟨"entry", [.op "entry" 0 (.copy "i" (.const 0)), .term "entry" (.jump "a")]⟩),
    ("a", ⟨"a", [.op "a" 0 (.copy "step" (.const 1)),
      .op "a" 1 (.arith "i" .add (.var "i") (.var "step")),
      .term "a" (.branch (.var "n") "a" "z")]⟩),
    ("z", ⟨"z", [.term "z" (.ret (some (.var "i")))]⟩)]

def readsTemporaries : Program :=
  (Program.empty.define oneSidedFunction).define steppingFunction

theorem load_readsTemporaries : (Program.load readsTemporaries.render).1 = readsTemporaries := by
  apply Program.WellBuilt.load_render
  decide +kernel

def exchange : Equiv.Perm String := Equiv.swap "a" "y"

theorem lookup_endValues_renameBlocks_steppingFunction :
    (Program.load readsTemporaries.render).1.functions.get? "count" = some steppingFunction ∧
    steppingFunction.blocks.contains entryName = true ∧ steppingFunction.KeepsApart exchange ∧
    ReadsSettled (.ofFunction (Program.load readsTemporaries.render).1 steppingFunction) ∧
    ∃ ctx renamed, Context.build (Program.load readsTemporaries.render).1 "count" = .ok ctx ∧
      Context.build ((Program.load readsTemporaries.render).1.define
        (steppingFunction.renameBlocks exchange)) "count" = .ok renamed ∧
      (endValues renamed (solve renamed)).lookup "y" = (endValues ctx (solve ctx)).lookup "a" := by
  have listed : (Program.load readsTemporaries.render).1.functions.get? "count" = some steppingFunction := by
    rw [load_readsTemporaries]
    decide +kernel
  have entry : steppingFunction.blocks.contains entryName = true := by decide +kernel
  have keeps : steppingFunction.KeepsApart exchange :=
    steppingFunction.keepsApart_of_injective exchange.injective (by decide +kernel)
  have settled : ReadsSettled (.ofFunction (Program.load readsTemporaries.render).1 steppingFunction) := by
    rw [load_readsTemporaries]
    apply readsSettled_of_assigned
    decide +kernel
  obtain ⟨ctx, renamed, built, renamed_built, same⟩ :=
    lookup_endValues_renameBlocks listed entry keeps settled
  have at_loop := same "a" (by decide +kernel)
  have new_name : exchange "a" = "y" := by decide +kernel
  rw [new_name] at at_loop
  exact ⟨listed, entry, keeps, settled, ctx, renamed, built, renamed_built, at_loop⟩

/-- Without settled reads the names matter, even if they are exchanged one for one. -/
theorem not_lookup_endValues_renameBlocks :
    ¬ ∀ (source name : String) (f : Function) (rename : String → String),
      (Program.load source).1.functions.get? name = some f → f.blocks.contains entryName = true →
      Function.Injective rename → rename entryName = entryName →
      (∀ block ∈ f.blocks.keys, isIdentifier (rename block)) →
      ∃ ctx renamed, Context.build (Program.load source).1 name = .ok ctx ∧
        Context.build ((Program.load source).1.define (f.renameBlocks rename)) name = .ok renamed ∧
        ∀ block ∈ f.blocks.keys, (endValues renamed (solve renamed)).lookup (rename block) =
          (endValues ctx (solve ctx)).lookup block := by
  intro claimed
  have listed : (Program.load readsTemporaries.render).1.functions.get? "test" = some oneSidedFunction := by
    rw [load_readsTemporaries]
    decide +kernel
  obtain ⟨ctx, renamed, built, renamed_built, same⟩ := claimed readsTemporaries.render "test"
    oneSidedFunction exchange listed (by decide +kernel) exchange.injective (by decide +kernel)
    (by decide +kernel)
  rw [load_readsTemporaries] at built renamed_built
  have at_exit := same "z" (by decide +kernel)
  obtain rfl := Except.ok.inj (built.symm.trans (Context.build_eq_ok (f := oneSidedFunction)
    (by decide +kernel) (by decide +kernel)))
  obtain rfl := Except.ok.inj (renamed_built.symm.trans (Context.build_eq_ok
    (f := oneSidedFunction.renameBlocks exchange) (by decide +kernel) (by decide +kernel)))
  revert at_exit
  decide +kernel

end Constants

end Lir
