import Lir.Proofs.Source.Names
import Lir.Proofs.Source.Reload

/-!
Programs that sources hold.

The names and types of a program decide whether a source can spell it, so a program is what some
source loads as exactly when everything in it stands under its own name, all names are identifiers,
and no type reads as another. That is a matter of finite lists, and is decided on them.
-/

set_option autoImplicit false

namespace Lir

namespace Ty

structure Readable (ty : Ty) : Prop where
  identifiers : ∀ inner ∈ ty.within, ∀ name ∈ inner.recordName?, isIdentifier name
  not_int : ∀ inner ∈ ty.within, inner ≠ .record "int"
  not_blank : ∀ inner ∈ ty.within, inner.result? ≠ some (.record "_")

theorem Readable.of_subset {ty part : Ty} (readable : ty.Readable)
    (subset : part.within ⊆ ty.within) : part.Readable where
  identifiers inner member := readable.identifiers inner (subset member)
  not_int inner member := readable.not_int inner (subset member)
  not_blank inner member := readable.not_blank inner (subset member)

mutual
theorem Readable.writable : (ty : Ty) → ty.Readable → ty.Writable
  | .int, _ => .int
  | .record name, readable =>
    have member : .record name ∈ within (.record name) := List.mem_singleton_self _
    .record (readable.identifiers _ member name rfl) fun same =>
      readable.not_int _ member (congrArg record same)
  | .pointer pointee, readable =>
    .pointer (Readable.writable pointee (readable.of_subset (List.subset_cons_self _ _)))
  | .function params result, readable => by
    have inside : ∀ inner, inner ∈ withinParams params ++ withinResult result →
        inner ∈ within (.function params result) := fun _ => List.mem_cons_of_mem _
    apply Writable.function
    · exact Readable.params_writable params fun param listed =>
        readable.of_subset fun inner member => inside inner
          (List.mem_append_left _ (mem_withinParams.2 ⟨param, listed, member⟩))
    · exact Readable.result_writable result fun type given =>
        readable.of_subset fun inner member => inside inner
          (List.mem_append_right _ (mem_withinResult.2 ⟨type, given, member⟩))
    · rintro type given rfl
      exact readable.not_blank (.function params result) List.mem_cons_self given

theorem Readable.params_writable : (params : List Ty) → (∀ param ∈ params, param.Readable) →
    ∀ param ∈ params, param.Writable
  | [], _, _, member => absurd member List.not_mem_nil
  | first :: rest, readable, param, member =>
    match List.mem_cons.1 member with
    | .inl same => same ▸ Readable.writable first (readable first List.mem_cons_self)
    | .inr later => Readable.params_writable rest
        (fun other listed => readable other (List.mem_cons_of_mem _ listed)) param later

theorem Readable.result_writable : (result : Option Ty) → (∀ type ∈ result, type.Readable) →
    ∀ type ∈ result, type.Writable
  | none, _, _, given => nomatch given
  | some result, readable, _, given =>
    Option.some.inj given ▸ Readable.writable result (readable result rfl)
end

end Ty

/-! ### From names and types back to what a source can spell -/

theorem writableTyped_of {t : Table Ty} (names : Identifiers t.keys)
    (types : ∀ ty ∈ t.values, ty.Writable) : t.Each WritableTyped := fun entry member =>
  ⟨names entry.1 (List.mem_map_of_mem member), types entry.2 (List.mem_map_of_mem member)⟩

theorem RecordDef.writable_of {r : RecordDef} (names : Identifiers (r.name :: r.fields.keys))
    (types : ∀ ty ∈ r.fields.values, ty.Writable) : r.Writable :=
  ⟨names _ List.mem_cons_self,
    writableTyped_of (fun name member => names name (List.mem_cons_of_mem _ member)) types⟩

theorem Block.writable_of {b : Block} (names : Identifiers b.names) (wellFormed : b.WellFormed) :
    b.Writable := by
  unfold Block.names at names
  rw [identifiers_cons, identifiers_flatMap] at names
  refine ⟨names.1, wellFormed, fun inst member => ?_⟩
  have spelled := names.2 inst member
  rw [identifiers_cons] at spelled
  exact spelled.2

theorem Function.writable_of {f : Function} (names : Identifiers f.names)
    (types : ∀ ty ∈ f.types, ty.Writable) (wellFormed : f.WellFormed) : f.Writable := by
  unfold Function.names at names
  simp only [identifiers_cons, identifiers_append, identifiers_flatMap] at names
  obtain ⟨own, ⟨⟨param_names, local_names⟩, _⟩, blocks⟩ := names
  -- The signature is one of the types, and its parts are in it.
  have signature : f.signature.toTy.Writable := types _ List.mem_cons_self
  cases signature with
  | function params result result_not_blank =>
    refine ⟨own, fun param listed => ⟨?_, ?_⟩, ⟨result, result_not_blank⟩, ?_, ?_⟩
    · exact param_names _ (List.mem_map_of_mem listed)
    · exact params _ (List.mem_map_of_mem listed)
    · exact writableTyped_of local_names fun ty member => types ty (List.mem_cons_of_mem _ member)
    · intro entry member
      have listed := (f.blocks.get?_eq_some_iff entry.1 entry.2).2 member
      exact ⟨wellFormed.named _ _ listed,
        Block.writable_of (blocks _ (List.mem_map_of_mem member)) (wellFormed.block _ _ listed)⟩

namespace Program

variable {p : Program}

theorem WellBuilt.writable_type (built : p.WellBuilt) {ty : Ty} (inside : ty.within ⊆ p.types) :
    ty.Writable := by
  apply Ty.Readable.writable
  constructor
  · intro inner member name named
    apply built.identifiers
    apply List.mem_append_right
    exact List.mem_filterMap.2 ⟨inner, inside member, named⟩
  · exact fun inner member => built.not_int inner (inside member)
  · exact fun inner member => built.not_blank inner (inside member)

theorem WellBuilt.writable (built : p.WellBuilt) : p.Writable := by
  have names : Identifiers p.names := built.identifiers
  have types : ∀ ty, (∃ r ∈ p.records.values, ty ∈ r.fields.values) ∨ ty ∈ p.globals.values ∨
      ty ∈ p.externs.values.map Signature.toTy ∨ (∃ f ∈ p.functions.values, ty ∈ f.types) →
      ty.Writable := by
    intro ty declared
    apply built.writable_type
    intro inner member
    unfold Program.types
    simp only [List.mem_append, List.mem_flatMap]
    refine ⟨ty, ?_, member⟩
    rcases declared with field | global | external | in_function
    · exact .inl (.inl (.inl field))
    · exact .inl (.inl (.inr global))
    · exact .inl (.inr external)
    · exact .inr in_function
  unfold Program.names at names
  simp only [identifiers_append, identifiers_flatMap] at names
  obtain ⟨⟨⟨⟨⟨⟨_, records⟩, globals⟩, externs⟩, _⟩, functions⟩, _⟩ := names
  constructor
  · intro entry member
    have value : entry.2 ∈ p.records.values := List.mem_map_of_mem member
    refine ⟨built.record_named _ _ ((p.records.get?_eq_some_iff _ _).2 member), ?_⟩
    exact RecordDef.writable_of (records _ value) fun ty field => types ty (.inl ⟨_, value, field⟩)
  · exact writableTyped_of globals fun ty member => types ty (.inr (.inl member))
  · intro entry member
    refine ⟨externs _ (List.mem_map_of_mem member), types _ (.inr (.inr (.inl ?_)))⟩
    exact List.mem_map_of_mem (List.mem_map_of_mem member)
  · intro entry member
    have listed := (p.functions.get?_eq_some_iff entry.1 entry.2).2 member
    have value : entry.2 ∈ p.functions.values := List.mem_map_of_mem member
    refine ⟨built.function_named _ _ listed, ?_⟩
    exact Function.writable_of (functions _ value)
      (fun ty inside => types ty (.inr (.inr (.inr ⟨_, value, inside⟩))))
      (built.wellFormed _ _ listed)

/-- A well-built program is what its printed form loads as. -/
theorem WellBuilt.load_render (built : p.WellBuilt) : (load p.render).1 = p :=
  congrArg Prod.fst (Program.load_render built.writable)

/-- Well-built programs, and no others, are what sources load as. -/
theorem wellBuilt_iff_exists_source (p : Program) :
    p.WellBuilt ↔ ∃ source, (load source).1 = p := by
  constructor
  · intro built
    exact ⟨p.render, built.load_render⟩
  · rintro ⟨source, rfl⟩
    exact (writable_load source).wellBuilt

/-! ### Deciding whether a program is well built -/

theorem wellBuilt_iff (p : Program) :
    p.WellBuilt ↔ (∀ entry ∈ p.records.entries, entry.2.name = entry.1) ∧
      (∀ entry ∈ p.functions.entries, entry.2.name = entry.1 ∧ entry.2.WellFormed) ∧
      (∀ name ∈ p.names, isIdentifier name) ∧
      ∀ ty ∈ p.types, ty ≠ .record "int" ∧ ty.result? ≠ some (.record "_") := by
  constructor
  · intro built
    refine ⟨fun entry member => ?_, fun entry member => ?_, built.identifiers,
      fun ty member => ⟨built.not_int ty member, built.not_blank ty member⟩⟩
    · exact built.record_named _ _ ((p.records.get?_eq_some_iff _ _).2 member)
    · have listed := (p.functions.get?_eq_some_iff entry.1 entry.2).2 member
      exact ⟨built.function_named _ _ listed, built.wellFormed _ _ listed⟩
  · rintro ⟨records, functions, identifiers, types⟩
    constructor
    · exact fun name r listed => records _ ((p.records.get?_eq_some_iff name r).1 listed)
    · exact fun name f listed => (functions _ ((p.functions.get?_eq_some_iff name f).1 listed)).1
    · exact fun name f listed => (functions _ ((p.functions.get?_eq_some_iff name f).1 listed)).2
    · intro name f listed
      exact (functions _ ((p.functions.get?_eq_some_iff name f).1 listed)).2.nodup_points
    · exact identifiers
    · exact fun ty member => (types ty member).1
    · exact fun ty member => (types ty member).2

instance (p : Program) : Decidable p.WellBuilt := decidable_of_iff' _ p.wellBuilt_iff

end Program

end Lir
