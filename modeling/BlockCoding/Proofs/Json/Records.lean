import BlockCoding.Proofs.Json.Spelling

/-!
# Proofs/Json/Records — values in documents

`Holds j read a` says that a document can be written and that `a` is read from it.  Numbers,
strings, lists, records and cases hold what they are built from, so a stored form holds its value as
soon as each of its parts does; and a document that holds a value still does after it was written
and read (`Holds.compact`, `Holds.pretty`).
-/

namespace BlockCoding.Json

variable {α : Type}

/-- **A document can be written, and `a` is read from it.** -/
structure Holds (j : Json) (read : Json → Option α) (a : α) : Prop where
  legible : j.Legible
  read_eq : read j = some a

namespace Holds

variable {j : Json} {read : Json → Option α} {a : α}

/-- It is read from the document that was written without blanks. -/
theorem compact (h : j.Holds read a) : (read? j.compact).bind read = some a := by
  rw [h.legible.read?_compact, Option.bind_some, h.read_eq]

/-- It is read from the document that was written over several lines. -/
theorem pretty (h : j.Holds read a) : (read? j.pretty).bind read = some a := by
  rw [h.legible.read?_pretty, Option.bind_some, h.read_eq]

end Holds

/-! ## Numbers, strings and lists -/

theorem legible_ofInt (i : Int) : (ofInt i).Legible := .number fun _ hd => nomatch hd

theorem legible_ofNat (n : Nat) : (ofNat n).Legible := .number fun _ hd => nomatch hd

theorem int?_ofInt (i : Int) : (ofInt i).int? = some i := by
  rcases Int.lt_or_le i 0 with hneg | hpos
  · have hsome : i.natAbs ≠ 0 := by omega
    have hi : -(i.natAbs : Int) = i := by omega
    simp only [ofInt, int?, hneg, decide_true, if_true, hsome, if_false, hi]
  · have hi : (i.natAbs : Int) = i := by omega
    simp only [ofInt, int?, Int.not_lt.mpr hpos, decide_false, Bool.false_eq_true, if_false, hi]

theorem int?_ofNat (n : Nat) : (ofNat n).int? = some n := rfl

theorem natBelow?_ofNat {n bound : Nat} (hn : n < bound) : (ofNat n).natBelow? bound = some n := by
  have hrange : 0 ≤ (n : Int) ∧ (n : Int) < bound := ⟨Int.natCast_nonneg n, by omega⟩
  rw [natBelow?, int?_ofNat]
  exact if_pos hrange

theorem holds_uint32 (n : UInt32) : (ofNat n.toNat).Holds uint32? n where
  legible := legible_ofNat _
  read_eq := by rw [uint32?, natBelow?_ofNat n.toNat_lt, Option.map_some, UInt32.ofNat_toNat]

theorem holds_uint64 (n : UInt64) : (ofNat n.toNat).Holds uint64? n where
  legible := legible_ofNat _
  read_eq := by rw [uint64?, natBelow?_ofNat n.toNat_lt, Option.map_some, UInt64.ofNat_toNat]

theorem holds_int32 (i : Int32) : (ofInt i.toInt).Holds int32? i where
  legible := legible_ofInt _
  read_eq := by
    have hrange : Int32.minValue.toInt ≤ i.toInt ∧ i.toInt ≤ Int32.maxValue.toInt :=
      ⟨Int32.minValue_le_toInt i, Int32.toInt_le i⟩
    rw [int32?, int?_ofInt]
    simp only [Option.bind_eq_bind, Option.bind_some, if_pos hrange, Int32.ofInt_toInt]

theorem holds_bool (b : Bool) : (bool b).Holds bool? b := ⟨.bool b, rfl⟩

theorem holds_string (s : String) : (ofString s).Holds string? s :=
  ⟨.string (Text.legible_encode s), Text.decode?_encode s⟩

/-- What is read from each element is read from the list. -/
theorem mapM_eq_some {β : Type} {f : α → Option β} {g : α → β} {xs : List α}
    (h : ∀ a ∈ xs, f a = some (g a)) : xs.mapM f = some (xs.map g) := by
  induction xs with
  | nil => rfl
  | cons x xs ih =>
    rw [List.mapM_cons, h x List.mem_cons_self, ih fun a ha => h a (List.mem_cons_of_mem _ ha)]
    rfl

theorem holds_list {write : α → Json} {read : Json → Option α}
    (h : ∀ a, (write a).Holds read a) (xs : List α) :
    (ofList write xs).Holds (list? read) xs where
  legible := .array fun item hitem => by
    obtain ⟨a, -, rfl⟩ := List.mem_map.mp hitem
    exact (h a).legible
  read_eq := by
    rw [ofList, list?, List.mapM_map]
    exact (mapM_eq_some fun a _ => (h a).read_eq).trans (congrArg some (List.map_id xs))

/-! ## Records -/

variable {members : List (String × Json)}

theorem legible_record (h : ∀ member ∈ members, member.2.Legible) : (record members).Legible := by
  refine .object (fun m hm => ?_) fun m hm => ?_
  · obtain ⟨member, -, rfl⟩ := List.mem_map.mp hm
    exact Text.legible_encode _
  · obtain ⟨member, hmember, rfl⟩ := List.mem_map.mp hm
    exact h member hmember

/-- Among members with different keys each is the only one with its own. -/
theorem filter_key_of_mem (hkeys : (members.map Prod.fst).Nodup) {member : String × Json}
    (hmember : member ∈ members) : members.filter (fun m => m.1 == member.1) = [member] := by
  induction members with
  | nil => cases hmember
  | cons first members ih =>
    obtain ⟨hfirst, hkeys⟩ := List.nodup_cons.mp hkeys
    have hother (m : String × Json) (hm : m ∈ members) : first.1 ≠ m.1 := fun h =>
      hfirst (h ▸ List.mem_map_of_mem hm)
    rcases List.mem_cons.mp hmember with rfl | hmember
    · have hnone : members.filter (fun m => m.1 == member.1) = [] :=
        List.filter_eq_nil_iff.mpr fun m hm h => hother m hm (eq_of_beq h).symm
      rw [List.filter_cons, if_pos (beq_self_eq_true _), hnone]
    · rw [List.filter_cons, if_neg fun h => hother member hmember (eq_of_beq h), ih hkeys hmember]

/-- So it is found under its key. -/
theorem memberSlot?_of_mem (hkeys : (members.map Prod.fst).Nodup) {member : String × Json}
    (hmember : member ∈ members) : memberSlot? members member.1 = some (.given member.2) := by
  rw [memberSlot?, filter_key_of_mem hkeys hmember]

/-- **The fields of a record are its members.** -/
theorem slots?_record {names : List String} (hdistinct : names.Nodup)
    (members : List (String × Json)) (hnames : members.map Prod.fst = names) :
    (record members).slots? names = some (members.map fun member => .given member.2) := by
  subst hnames
  rw [record, slots?, List.mapM_map]
  -- each key is decoded, and the members are what they were before
  refine (congrArg (· >>= _) (mapM_eq_some (g := id) fun member _ => ?_)).trans ?_
  · simp
  · rw [List.map_id]
    exact (List.mapM_map ..).trans (mapM_eq_some fun _ => memberSlot?_of_mem hdistinct)

/-! ## Cases -/

theorem case?_ofString (name : String) : (ofString name).case? = some (name, none) := by
  rw [ofString, case?, Text.decode?_encode]
  rfl

theorem legible_tagged {payload : Json} (h : payload.Legible) (name : String) :
    (tagged name payload).Legible :=
  legible_record fun member hmember => by rwa [List.mem_singleton.mp hmember]

theorem case?_tagged (name : String) (payload : Json) :
    (tagged name payload).case? = some (name, some payload) := by
  rw [tagged, record, List.map_singleton, case?, Text.decode?_encode]
  rfl

/-- A case that carries nothing is read from its name. -/
theorem holds_bare {cases : List α} {nameOf : α → String} {a : α}
    (h : cases.find? (fun b => nameOf b == nameOf a) = some a) :
    (ofString (nameOf a)).Holds (bareCase? cases nameOf) a where
  legible := (holds_string _).legible
  read_eq := by
    rw [bareCase?, case?_ofString]
    exact h

end BlockCoding.Json
