import Lir.Json.Program
import Lir.Proofs.Entries

/-!
Decoders that give back what a JSON value was made from.

A value that is entered has a level less inside, so a decoder needs as many levels as the value
nests; this is said once, as `Reads`. Texts, lists, tables, records and tags are read if their parts
are, whatever the parts are.
-/

set_option autoImplicit false

namespace Lir.Json

/-! ### How deeply a value nests -/

mutual
def depth : Json → Nat
  | .array items => itemsDepth items + 1
  | .object members => membersDepth members + 1
  | .null | .bool _ | .integer _ | .fraction | .text _ => 0

def itemsDepth : List Json → Nat
  | [] => 0
  | item :: rest => max item.depth (itemsDepth rest)

def membersDepth : List (Option String × Json) → Nat
  | [] => 0
  | (_, value) :: rest => max value.depth (membersDepth rest)
end

theorem itemsDepth_le {items : List Json} {levels : Nat} :
    itemsDepth items ≤ levels ↔ ∀ item ∈ items, item.depth ≤ levels := by
  induction items with
  | nil => simp [itemsDepth]
  | cons item rest ih => rw [itemsDepth, Nat.max_le, ih, List.forall_mem_cons]

theorem membersDepth_le {members : List (Option String × Json)} {levels : Nat} :
    membersDepth members ≤ levels ↔ ∀ member ∈ members, member.2.depth ≤ levels := by
  induction members with
  | nil => simp [membersDepth]
  | cons member rest ih => rw [membersDepth, Nat.max_le, ih, List.forall_mem_cons]

theorem exists_of_depth_array_le {items : List Json} {levels : Nat}
    (fits : (Json.array items).depth ≤ levels) :
    ∃ inner, levels = inner + 1 ∧ ∀ item ∈ items, item.depth ≤ inner := by
  rw [depth] at fits
  exact ⟨levels - 1, by omega, itemsDepth_le.1 (by omega)⟩

theorem exists_of_depth_record_le {members : List (String × Json)} {levels : Nat}
    (fits : (record members).depth ≤ levels) :
    ∃ inner, levels = inner + 1 ∧ ∀ member ∈ members, member.2.depth ≤ inner := by
  rw [record, depth] at fits
  have inside := membersDepth_le.1 (Nat.le_sub_one_of_lt fits)
  exact ⟨levels - 1, by omega, fun member listed => inside _ (List.mem_map_of_mem listed)⟩

/-! ### Values that are read back -/

variable {α : Type} {bound : Nat}

/-- A decoder reads the JSON value as the given one if it has as many levels as the value nests, and
fewer than the bound. -/
def Reads (bound : Nat) (decode : Decoder α) (value : Json) (result : α) : Prop :=
  ∀ levels < bound, value.depth ≤ levels → decode levels value = some result

@[simp] theorem required_some (decode : Decoder α) (levels : Nat) (value : Json) :
    required decode levels (some value) = decode levels value := rfl

@[simp] theorem optional_some (decode : Decoder α) (levels : Nat) (value : Json) :
    optional decode levels (some value) = nullable decode levels value := rfl

@[simp] theorem string_str (levels : Nat) (text : String) :
    string levels (str text) = some text := rfl

@[simp] theorem nullable_string (levels : Nat) (text : Option String) :
    nullable string levels (ofOption str text) = some text := by
  cases text <;> rfl

theorem mapM_map_eq_some {β γ : Type} {decode : β → Option γ} {encode : α → β} {read : α → γ}
    {items : List α} (each : ∀ item ∈ items, decode (encode item) = some (read item)) :
    (items.map encode).mapM decode = some (items.map read) := by
  induction items with
  | nil => rfl
  | cons item rest ih =>
    obtain ⟨first, later⟩ := List.forall_mem_cons.1 each
    rw [List.map_cons, List.mapM_cons, first, ih later]
    rfl

theorem reads_list {decode : Decoder α} {encode : α → Json} {items : List α}
    (each : ∀ item ∈ items, Reads bound decode (encode item) item) :
    Reads bound (list decode) (ofList encode items) items := by
  intro levels bounded fits
  obtain ⟨inner, rfl, inside⟩ := exists_of_depth_array_le fits
  have read : ∀ item ∈ items, decode inner (encode item) = some (id item) :=
    fun item member => each item member inner (by omega) (inside _ (List.mem_map_of_mem member))
  exact (mapM_map_eq_some read).trans (congrArg some items.map_id)

theorem reads_table {decode : Decoder α} {encode : α → Json} {t : Table α}
    (each : t.Each fun _ value => Reads bound decode (encode value) value) :
    Reads bound (table decode) (t.toJson encode) t := by
  intro levels bounded fits
  obtain ⟨inner, rfl, inside⟩ := exists_of_depth_record_le fits
  have read : ∀ member ∈ t.entries,
      entry decode inner (some member.1, encode member.2) = some (id member) := by
    intro member listed
    have value_read := each member listed inner (by omega)
      (inside _ (List.mem_map_of_mem listed))
    rw [entry, value_read]
    rfl
  rw [Table.toJson, record, List.map_map, table, Function.comp_def, mapM_map_eq_some read,
    List.map_id, Option.map_some, t.ofList_entries]

theorem reads_nullable {decode : Decoder α} {encode : α → Json} {value : Option α}
    (each : ∀ item ∈ value, encode item ≠ .null ∧ Reads bound decode (encode item) item) :
    Reads bound (nullable decode) (ofOption encode value) value := by
  intro levels bounded fits
  cases value with
  | none => rfl
  | some item =>
    obtain ⟨not_null, reads⟩ := each item rfl
    rw [ofOption, nullable.eq_2 _ _ _ not_null, reads levels bounded fits]
    rfl

/-! ### Records and tags -/

theorem membersNamed_record {members : List (String × Json)}
    (nodup : (members.map Prod.fst).Nodup) {member : String × Json} (listed : member ∈ members) :
    membersNamed member.1 (members.map fun member => (some member.1, member.2)) =
      [member.2] := by
  have named : ∀ members : List (String × Json),
      membersNamed member.1 (members.map fun member => (some member.1, member.2)) =
        (members.filter fun other => other.1 = member.1).map Prod.snd := by
    intro members
    simp [membersNamed, List.filter_map, Function.comp_def]
  rw [named]
  induction members with
  | nil => exact absurd listed List.not_mem_nil
  | cons first rest ih =>
    rw [List.map_cons, List.nodup_cons] at nodup
    obtain ⟨absent, nodup⟩ := nodup
    rcases List.mem_cons.1 listed with rfl | later
    · have no_other : ∀ other ∈ rest, ¬ other.1 = member.1 :=
        fun other listed same => absent (same ▸ List.mem_map_of_mem listed)
      have none_left : rest.filter (fun other => other.1 = member.1) = [] := by
        simpa using no_other
      rw [List.filter_cons_of_pos (by simp), none_left]
      rfl
    · have differs : first.1 ≠ member.1 :=
        fun same => absent (same ▸ List.mem_map_of_mem later)
      rw [List.filter_cons_of_neg (by simpa using differs)]
      exact ih nodup later

theorem allFields_record {members : List (String × Json)} (nodup : (members.map Prod.fst).Nodup)
    (levels : Nat) :
    allFields (members.map Prod.fst) (levels + 1) (record members) =
      some (members.map fun member => some member.2, levels) := by
  have named : (members.map fun member => (some member.1, member.2)).any
      (fun member => member.1.isNone) = false := by simp
  rw [allFields, record, fields, named, if_neg Bool.false_ne_true]
  refine congrArg (Option.map (·, levels)) (mapM_map_eq_some fun member listed => ?_)
  rw [membersNamed_record nodup listed]

theorem reads_record {members : List (String × Json)} {result : α}
    {decode : List (Option Json) × Nat → Option α} (nodup : (members.map Prod.fst).Nodup)
    (reads : ∀ levels < bound, (∀ member ∈ members, member.2.depth ≤ levels) →
      decode (members.map fun member => some member.2, levels) = some result) :
    Reads bound (fun levels value => allFields (members.map Prod.fst) levels value >>= decode)
      (record members) result := by
  intro levels bounded fits
  obtain ⟨inner, rfl, inside⟩ := exists_of_depth_record_le fits
  dsimp only
  rw [allFields_record nodup]
  exact reads inner (Nat.lt_of_succ_lt bounded) inside

theorem reads_tag {name : String} {content : Json} {result : α}
    {decode : String × Option Json × Nat → Option α}
    (reads : ∀ levels, levels + 1 < bound → content.depth ≤ levels →
      decode (name, some content, levels) = some result) :
    Reads bound (fun levels value => tagged levels value >>= decode) (tag name content)
      result := by
  intro levels bounded fits
  obtain ⟨inner, rfl, inside⟩ := exists_of_depth_record_le fits
  exact reads inner bounded (inside _ List.mem_cons_self)

theorem reads_named {name : α → String} (injective : Function.Injective name) {values : List α}
    {value : α} (member : value ∈ values) :
    Reads bound (named name values) (str (name value)) value := by
  intro levels _ _
  obtain ⟨other, found⟩ : ∃ other,
      values.find? (fun candidate => name candidate = name value) = some other := by
    refine Option.isSome_iff_exists.1 (List.find?_isSome.2 ⟨value, member, ?_⟩)
    exact decide_eq_true rfl
  have matched := List.find?_some found
  have same : other = value := injective (of_decide_eq_true matched)
  rw [same] at found
  have tag : tagged levels (str (name value)) = some (name value, none, levels) := by
    cases levels <;> rfl
  rw [named, tag, Option.bind_eq_bind, Option.bind_some]
  dsimp only
  rw [found]
  rfl

end Lir.Json
