import Lir.Proofs.Constants.Transfer
import Lir.Proofs.Flow.Below

/-!
When constant propagation is monotone.

Folding and joining values is monotone. An instruction is monotone between two states if the names
that it reads are followed in both or in neither: a missing name joins like the least value but reads
like the greatest. Which names a block makes followed depends only on which are followed before it,
one by one.
-/

set_option autoImplicit false

namespace Lir

namespace FlatInt

theorem below_iff (a b : FlatInt) : Below a b ↔ a = .bottom ∨ a = b ∨ b = .top := by
  unfold Below
  rw [join_eq]
  cases a <;> cases b <;> grind [flatJoin]

theorem arith_mono (op : ArithOp) {l l' r r' : FlatInt} (left : Below l l') (right : Below r r') :
    Below (arith op l r) (arith op l' r') := by
  rw [below_iff] at left right ⊢
  cases l <;> cases l' <;> cases r <;> cases r' <;> grind [arith]

theorem compare_mono (op : CmpOp) {l l' r r' : FlatInt} (left : Below l l') (right : Below r r') :
    Below (compare op l r) (compare op l' r') := by
  rw [below_iff] at left right ⊢
  cases l <;> cases l' <;> cases r <;> cases r' <;> simp_all [compare]

end FlatInt

/-! ### States that are followed alike -/

namespace ConstEnv

variable {s t : ConstEnv}

/-- A name that is missing may hold anything, so what is read grows only if it is followed in both
states or in neither. -/
theorem value_mono (below : Below s t) {operand : Operand}
    (known : ∀ name, operand.name? = some name → name ∈ t → name ∈ s) :
    Below (value s operand) (value t operand) := by
  cases operand with
  | const word => exact Below.refl _
  | var name =>
    rw [value, value]
    cases found : s[name]? with
    | some old =>
      obtain ⟨above, there, grown⟩ := (below_map_iff s t).1 below name old found
      rw [there]
      exact grown
    | none =>
      have missing : t[name]? = none := by
        cases there : t[name]? with
        | none => rfl
        | some above =>
          have member := known name rfl ((mem_map_iff t name).2 ⟨above, there⟩)
          simp [mem_map_iff, found] at member
      rw [missing]
      exact Below.refl _

theorem joinAll_mono (below : Below s t) (names : NameSet) {value above : FlatInt}
    (grown : Below value above) : Below (joinAll s names value) (joinAll t names above) := by
  rw [below_map_iff] at below ⊢
  intro name old found
  rw [getElem?_joinAll] at found ⊢
  split at found
  next written =>
    obtain ⟨before, there, rfl⟩ := Option.map_eq_some_iff.1 found
    obtain ⟨after, above_there, larger⟩ := below name before there
    rw [if_pos written, above_there]
    exact ⟨_, rfl, larger.join_mono grown⟩
  next kept =>
    rw [if_neg kept]
    exact below name old found

theorem forgetAll_mono (below : Below s t) (names : NameSet) :
    Below (forgetAll s names) (forgetAll t names) := by
  rw [below_map_iff] at below ⊢
  intro name old found
  rw [getElem?_forgetAll] at found ⊢
  split at found
  next written =>
    obtain ⟨before, there, rfl⟩ := Option.map_eq_some_iff.1 found
    obtain ⟨after, above_there, _⟩ := below name before there
    rw [if_pos written, above_there]
    exact ⟨_, rfl, Below.refl _⟩
  next kept =>
    rw [if_neg kept]
    exact below name old found

end ConstEnv

namespace Constants

variable {ctx : Context} {s t : ConstEnv}

theorem assign_mono (below : Below s t) (dst : String) {value above : FlatInt}
    (grown : Below value above) : Below (assign ctx s dst value) (assign ctx t dst above) := by
  rw [below_map_iff] at below ⊢
  intro name old found
  rw [getElem?_assign] at found ⊢
  split at found
  next assigned =>
    rw [if_pos assigned]
    exact ⟨above, rfl, Option.some.inj found ▸ grown⟩
  next kept =>
    rw [if_neg kept]
    exact below name old found

def readValues (ctx : Context) : Instruction → List String
  | .op _ _ (.copy _ src) => src.name?.toList
  | .op _ _ (.arith _ _ lhs rhs) | .op _ _ (.cmp _ _ lhs rhs) => [lhs, rhs].filterMap Operand.name?
  | .op _ _ (.store dst value) =>
    if ctx.storeType? dst value = some .int then value.name?.toList else []
  | _ => []

theorem copiesUnknown_eq (below : Below s t) (dst : String) {src : Operand}
    (known : ∀ name, src.name? = some name → name ∈ t → name ∈ s) :
    copiesUnknown ctx s dst src = copiesUnknown ctx t dst src := by
  cases src with
  | const word => rfl
  | var name =>
    have present : name ∈ s ↔ name ∈ t := ⟨below.mem, known name rfl⟩
    simp only [copiesUnknown, present]

/-- An instruction is monotone where what it reads is followed alike. -/
theorem transfer_mono (below : Below s t) {inst : Instruction}
    (known : ∀ name ∈ readValues ctx inst, name ∈ t → name ∈ s) :
    Below (transfer ctx inst s) (transfer ctx inst t) := by
  cases inst with
  | term _ _ => exact below
  | op block index operation =>
    have reads : ∀ operand : Operand, (∀ name, operand.name? = some name →
        name ∈ readValues ctx (.op block index operation)) →
        Below (ConstEnv.value s operand) (ConstEnv.value t operand) := fun operand listed =>
      ConstEnv.value_mono below fun name named => known name (listed name named)
    cases operation with
    | copy dst src =>
      have read_src : ∀ name, src.name? = some name →
          name ∈ readValues ctx (.op block index (.copy dst src)) := fun name named => by
        simp [readValues, named]
      rw [transfer, transfer, copiesUnknown_eq below dst fun name named => known name (read_src name named)]
      split
      · exact below
      · exact assign_mono below dst (reads src read_src)
    | arith dst op lhs rhs =>
      apply assign_mono below dst
      apply FlatInt.arith_mono op
      · exact reads lhs fun name named => by simp [readValues, named]
      · exact reads rhs fun name named => by simp [readValues, named]
    | cmp dst op lhs rhs =>
      apply assign_mono below dst
      apply FlatInt.compare_mono op
      · exact reads lhs fun name named => by simp [readValues, named]
      · exact reads rhs fun name named => by simp [readValues, named]
    | load dst src => exact assign_mono below dst (Below.refl _)
    | store dst value =>
      rw [transfer, transfer]
      split
      next storesInt =>
        apply ConstEnv.joinAll_mono below
        exact reads value fun name named => by simp [readValues, storesInt, named]
      next => exact below
    | call site =>
      have forgotten := ConstEnv.forgetAll_mono below (ctx.aliases.clobbered (.op block index))
      rw [transfer, transfer]
      cases site.dst with
      | none => exact forgotten
      | some dst => exact assign_mono forgotten dst (Below.refl _)
    | gep _ _ _ | gfp _ _ _ | alloc _ _ _ | addrOf _ _ => exact below

theorem transferAll_mono (below : Below s t) {instructions : List Instruction}
    (known : ∀ before inst after, instructions = before ++ inst :: after →
      ∀ name ∈ readValues ctx inst, name ∈ (analysis ctx).transferAll before t →
        name ∈ (analysis ctx).transferAll before s) :
    Below ((analysis ctx).transferAll instructions s) ((analysis ctx).transferAll instructions t) := by
  induction instructions generalizing s t with
  | nil => exact below
  | cons inst rest ih =>
    have first := transfer_mono below (known [] inst rest rfl)
    refine ih first fun before later after parts => ?_
    exact known (inst :: before) later after (by rw [parts, List.cons_append])

/-! ### Which names are followed -/

theorem mem_assign_iff (s : ConstEnv) (dst : String) (value : FlatInt) (name : String) :
    name ∈ assign ctx s dst value ↔ name ∈ s ∨ dst = name ∧ tracks ctx name = true := by
  constructor
  · exact mem_assign
  · rw [mem_map_iff, mem_map_iff, getElem?_assign]
    rintro (⟨old, found⟩ | ⟨rfl, tracked⟩)
    · split
      · exact ⟨_, rfl⟩
      · exact ⟨old, found⟩
    · exact ⟨value, if_pos ⟨tracked, rfl⟩⟩

theorem mem_transfer_of_mem {name : String} (member : name ∈ s) (inst : Instruction) :
    name ∈ transfer ctx inst s := by
  have assigned : ∀ (dst : String) (value : FlatInt), name ∈ assign ctx s dst value :=
    fun dst value => (mem_assign_iff s dst value name).2 (.inl member)
  cases inst with
  | term _ _ => exact member
  | op block index operation =>
    cases operation with
    | copy dst src =>
      rw [transfer]
      split
      · exact member
      · exact assigned dst _
    | arith dst _ _ _ | cmp dst _ _ _ | load dst _ => exact assigned dst _
    | store dst value =>
      rw [transfer]
      split
      · exact (ConstEnv.mem_joinAll _ _ _ name).2 member
      · exact member
    | call site =>
      have kept := (ConstEnv.mem_forgetAll s (ctx.aliases.clobbered (.op block index)) name).2 member
      rw [transfer]
      cases site.dst with
      | none => exact kept
      | some dst => exact (mem_assign_iff _ dst _ name).2 (.inl kept)
    | gep _ _ _ | gfp _ _ _ | alloc _ _ _ | addrOf _ _ => exact member

/-- A name that is followed after an instruction is so whatever was followed before it, or because
one name was. -/
theorem mem_transfer_cases {inst : Instruction} {name : String}
    (member : name ∈ transfer ctx inst s) :
    (∀ t, name ∈ transfer ctx inst t) ∨
      ∃ source ∈ s, ∀ t, source ∈ t → name ∈ transfer ctx inst t := by
  have kept : name ∈ s → ∃ source ∈ s, ∀ t, source ∈ t → name ∈ transfer ctx inst t :=
    fun before => ⟨name, before, fun t there => mem_transfer_of_mem there inst⟩
  rcases mem_transfer member with before | ⟨assigns, tracked⟩
  · exact .inr (kept before)
  · have given : ∀ (t : ConstEnv) (value : FlatInt), name ∈ assign ctx t name value :=
      fun t value => (mem_assign_iff t name value name).2 (.inr ⟨rfl, tracked⟩)
    cases inst with
    | term _ _ => cases assigns
    | op block index operation =>
      cases operation with
      | copy dst src =>
        cases assigns
        -- Whether the copy counts is up to its source, if the destination is not declared.
        cases src with
        | const word => exact .inl fun t => given t _
        | var source =>
          by_cases declared : (ctx.typeOf? name).isNone = true
          · rw [transfer] at member
            split at member
            next => exact .inr (kept member)
            next counts =>
              have followed : source ∈ s := by simpa [copiesUnknown, declared] using counts
              refine .inr ⟨source, followed, fun t there => ?_⟩
              rw [transfer, if_neg (by simp [copiesUnknown, there])]
              exact given t _
          · refine .inl fun t => ?_
            rw [transfer, if_neg (by simp [copiesUnknown, declared])]
            exact given t _
      | arith dst _ _ _ | cmp dst _ _ _ | load dst _ =>
        cases assigns
        exact .inl fun t => given t _
      | store dst value => cases assigns
      | call site =>
        refine .inl fun t => ?_
        have result : site.dst = some name := assigns
        rw [transfer, result]
        exact given _ _
      | gep dst _ _ | gfp dst _ _ | alloc dst _ _ | addrOf dst _ => exact .inr (kept member)

theorem mem_transferAll_of_mem {name : String} (member : name ∈ s)
    (instructions : List Instruction) : name ∈ (analysis ctx).transferAll instructions s := by
  induction instructions generalizing s with
  | nil => exact member
  | cons inst rest ih => exact ih (mem_transfer_of_mem member inst)

theorem mem_transferAll_cases {instructions : List Instruction} {name : String}
    (member : name ∈ (analysis ctx).transferAll instructions s) :
    (∀ t, name ∈ (analysis ctx).transferAll instructions t) ∨
      ∃ source ∈ s, ∀ t, source ∈ t → name ∈ (analysis ctx).transferAll instructions t := by
  induction instructions generalizing s with
  | nil => exact .inr ⟨name, member, fun _ there => there⟩
  | cons inst rest ih =>
    rcases ih member with always | ⟨between, followed, later⟩
    · exact .inl fun t => always (transfer ctx inst t)
    · rcases mem_transfer_cases followed with given | ⟨source, before, first⟩
      · exact .inl fun t => later _ (given t)
      · exact .inr ⟨source, before, fun t there => later _ (first t there)⟩

theorem mem_transferAll_mono (more : ∀ name ∈ s, name ∈ t) {instructions : List Instruction}
    {name : String} (member : name ∈ (analysis ctx).transferAll instructions s) :
    name ∈ (analysis ctx).transferAll instructions t := by
  rcases mem_transferAll_cases member with always | ⟨source, before, later⟩
  · exact always t
  · exact later t (more source before)

end Constants

end Lir
