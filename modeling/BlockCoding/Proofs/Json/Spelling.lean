import BlockCoding.Proofs.Json.Literals

/-!
# Proofs/Json/Spelling — what is written is read

`Spells j cs` says that the characters `cs` spell the document `j`: the grammar of documents, with
blanks wherever they may stand.  Both printers spell the document they are given
(`Legible.spells_chars`, `Legible.spells_prettyChars`), and the reader reads every spelling
(`readValue_spells`): so `read?_compact` and `read?_pretty`, for every document whose literals can
be written.
-/

namespace BlockCoding.Json

/-! ## Spellings -/

/-- Whether there are only blanks. -/
def Blank (bs : List Char) : Prop := ∀ c ∈ bs, isBlank c = true

mutual

/-- **The characters spell the document.** -/
inductive Spells : Json → List Char → Prop
  | null : Spells .null (chars .null)
  | bool (b : Bool) : Spells (.bool b) (chars (.bool b))
  | number {n : Number} (hn : n.Legible) : Spells (.number n) n.chars
  | string {t : Text} (ht : t.Legible) : Spells (.string t) t.chars
  | emptyArray {bs : List Char} (hbs : Blank bs) : Spells (.array []) ('[' :: (bs ++ [']']))
  | array {items : List Json} {bs cs : List Char} (hbs : Blank bs) (h : SpellsItems items cs) :
    Spells (.array items) ('[' :: (bs ++ cs))
  | emptyObject {bs : List Char} (hbs : Blank bs) : Spells (.object []) ('{' :: (bs ++ ['}']))
  | object {members : List (Text × Json)} {bs cs : List Char} (hbs : Blank bs)
    (h : SpellsMembers members cs) : Spells (.object members) ('{' :: (bs ++ cs))

/-- The characters spell the items of an array, up to its closing bracket. -/
inductive SpellsItems : List Json → List Char → Prop
  | last {item : Json} {cs bs : List Char} (h : Spells item cs) (hbs : Blank bs) :
    SpellsItems [item] (cs ++ (bs ++ [']']))
  | more {item : Json} {items : List Json} {cs bs bs' ds : List Char} (h : Spells item cs)
    (hbs : Blank bs) (hbs' : Blank bs') (hlater : SpellsItems items ds) :
    SpellsItems (item :: items) (cs ++ (bs ++ ',' :: (bs' ++ ds)))

/-- The characters spell the members of an object, up to its closing brace. -/
inductive SpellsMembers : List (Text × Json) → List Char → Prop
  | last {key : Text} {value : Json} {b₁ b₂ b₃ cs : List Char} (hkey : key.Legible)
    (hb₁ : Blank b₁) (hb₂ : Blank b₂) (h : Spells value cs) (hb₃ : Blank b₃) :
    SpellsMembers [(key, value)] (key.chars ++ (b₁ ++ ':' :: (b₂ ++ (cs ++ (b₃ ++ ['}'])))))
  | more {key : Text} {value : Json} {members : List (Text × Json)}
    {b₁ b₂ b₃ b₄ cs ds : List Char} (hkey : key.Legible)
    (hb₁ : Blank b₁) (hb₂ : Blank b₂) (h : Spells value cs) (hb₃ : Blank b₃) (hb₄ : Blank b₄)
    (hlater : SpellsMembers members ds) :
    SpellsMembers ((key, value) :: members)
      (key.chars ++ (b₁ ++ ':' :: (b₂ ++ (cs ++ (b₃ ++ ',' :: (b₄ ++ ds))))))

end

/-! ## The reader -/

variable {rest : List Char}

theorem eq_of_isBlank {c : Char} (hc : isBlank c = true) :
    c = ' ' ∨ c = '\n' ∨ c = '\t' ∨ c = '\r' := by
  simpa only [isBlank, Bool.or_eq_true, decide_eq_true_eq, or_assoc] using hc

/-- Blanks end where something else follows. -/
theorem skipBlanks_append {bs : List Char} (hbs : Blank bs) {c : Char} (hc : isBlank c = false)
    (cs : List Char) : skipBlanks (bs ++ c :: cs) = c :: cs := by
  rw [skipBlanks, List.dropWhile_append_of_pos hbs, List.dropWhile_cons_of_neg (by simp [hc])]

/-- Blanks, and then what may follow a value, do not belong to a number. -/
theorem endsNumber_append {bs : List Char} (hbs : Blank bs) {c : Char}
    (hc : c.isDigit = false ∧ c ≠ '.' ∧ c ≠ 'e' ∧ c ≠ 'E') (cs : List Char) :
    EndsNumber (bs ++ c :: cs) := by
  cases bs with
  | nil =>
    intro c' hc'
    exact Option.some.inj hc' ▸ hc
  | cons b bs =>
    intro c' hc'
    obtain rfl : b = c' := Option.some.inj hc'
    rcases eq_of_isBlank (hbs b List.mem_cons_self) with rfl | rfl | rfl | rfl <;> decide

/-- A number starts with its sign or a digit. -/
theorem Number.exists_chars (n : Number) :
    ∃ c cs, n.chars = c :: cs ∧ (c = '-' ∨ c.isDigit = true) := by
  rw [Number.chars_eq]
  cases n.negative with
  | true => exact ⟨_, _, rfl, .inl rfl⟩
  | false =>
    obtain ⟨c, cs, hcs, hc⟩ := exists_natChars n.whole
    exact ⟨c, cs ++ _, by rw [hcs]; rfl, .inr hc⟩

/-- A value that starts like a number is read as one. -/
theorem readValue_number (fuel : Nat) {c : Char} (hc : c = '-' ∨ c.isDigit = true)
    (cs : List Char) : readValue (fuel + 1) (c :: cs)
      = (readNumber (c :: cs)).map fun (n, rest) => (number n, rest) := by
  have hother {c' : Char} {ds : List Char} (hc' : (c' = '-' ∨ c'.isDigit = true) → False)
      (h : c :: cs = c' :: ds) : False := hc' ((List.cons.inj h).1 ▸ hc)
  rw [readValue]
  · cases readNumber (c :: cs) <;> rfl
  all_goals exact fun _ => hother (by decide)

/-- A spelling does not start with a blank or a closing bracket. -/
theorem Spells.exists_cons {j : Json} {cs : List Char} (h : Spells j cs) :
    ∃ c ds, cs = c :: ds ∧ isBlank c = Bool.false ∧ c ≠ ']' := by
  cases h with
  | @number n hn =>
    obtain ⟨c, ds, hds, hc⟩ := n.exists_chars
    refine ⟨c, ds, hds, Bool.eq_false_iff.mpr fun hblank => ?_, ?_⟩
    · rcases eq_of_isBlank hblank with rfl | rfl | rfl | rfl <;> revert hc <;> decide
    · rintro rfl
      revert hc
      decide
  | bool b => cases b <;> exact ⟨_, _, rfl, by decide, by decide⟩
  | _ => exact ⟨_, _, rfl, by decide, by decide⟩

theorem SpellsItems.exists_cons {items : List Json} {cs : List Char} (h : SpellsItems items cs) :
    ∃ c ds, cs = c :: ds ∧ isBlank c = Bool.false ∧ c ≠ ']' := by
  cases h with
  | last h hbs =>
    obtain ⟨c, ds, rfl, hc⟩ := h.exists_cons
    exact ⟨c, _, rfl, hc⟩
  | more h =>
    obtain ⟨c, ds, rfl, hc⟩ := h.exists_cons
    exact ⟨c, _, rfl, hc⟩

theorem SpellsMembers.exists_cons {members : List (Text × Json)} {cs : List Char}
    (h : SpellsMembers members cs) : ∃ ds, cs = '"' :: ds := by
  cases h <;> exact ⟨_, rfl⟩

/-! ### Arrays and objects -/

variable {fuel : Nat} {bs bs' cs cs' : List Char} {item value : Json} {key : Text}

/-- An array is read with its items. -/
theorem readValue_array (hbs : Blank bs) {c : Char} (hc : isBlank c = false ∧ c ≠ ']') :
    readValue (fuel + 1) ('[' :: (bs ++ c :: cs))
      = (readItems fuel (c :: cs)).map fun (items, rest) => (array items, rest) := by
  rw [readValue, skipBlanks_append hbs hc.1]
  split
  · next h => exact absurd (List.cons.inj h).1 hc.2
  · cases readItems fuel (c :: cs) <;> rfl

theorem readItems_last (h : readValue fuel cs = some (item, bs ++ ']' :: rest))
    (hbs : Blank bs) : readItems (fuel + 1) cs = some ([item], rest) := by
  rw [readItems, h]
  simp only [Option.bind_eq_bind, Option.bind_some, skipBlanks_append hbs (c := ']') rfl]
  rfl

theorem readItems_more (h : readValue fuel cs = some (item, bs ++ ',' :: cs')) (hbs : Blank bs) :
    readItems (fuel + 1) cs
      = (readItems fuel (skipBlanks cs')).map fun (items, rest) => (item :: items, rest) := by
  rw [readItems, h]
  simp only [Option.bind_eq_bind, Option.bind_some, skipBlanks_append hbs (c := ',') rfl]
  cases readItems fuel (skipBlanks cs') <;> rfl

theorem Text.chars_append (t : Text) (cs : List Char) :
    t.chars ++ cs = '"' :: (t.body ++ '"' :: cs) := by
  rw [Text.chars, List.cons_append, List.cons_append, List.append_assoc, List.singleton_append]

/-- An object is read with its members. -/
theorem readValue_object (hbs : Blank bs) :
    readValue (fuel + 1) ('{' :: (bs ++ '"' :: cs))
      = (readMembers fuel ('"' :: cs)).map fun (members, rest) => (object members, rest) := by
  rw [readValue, skipBlanks_append hbs (c := '"') rfl]
  split
  · next h => exact absurd (List.cons.inj h).1 (by decide)
  · cases readMembers fuel ('"' :: cs) <;> rfl

theorem readMembers_last (hkey : key.Legible) (hbs : Blank bs)
    (h : readValue fuel (skipBlanks cs) = some (value, bs' ++ '}' :: rest)) (hbs' : Blank bs') :
    readMembers (fuel + 1) (key.chars ++ (bs ++ ':' :: cs)) = some ([(key, value)], rest) := by
  rw [Text.chars_append, readMembers, hkey]
  simp only [Option.bind_eq_bind, Option.bind_some, skipBlanks_append hbs (c := ':') rfl, h,
    skipBlanks_append hbs' (c := '}') rfl]
  rfl

theorem readMembers_more (hkey : key.Legible) (hbs : Blank bs)
    (h : readValue fuel (skipBlanks cs) = some (value, bs' ++ ',' :: cs')) (hbs' : Blank bs') :
    readMembers (fuel + 1) (key.chars ++ (bs ++ ':' :: cs))
      = (readMembers fuel (skipBlanks cs')).map fun (members, rest) =>
        ((key, value) :: members, rest) := by
  rw [Text.chars_append, readMembers, hkey]
  simp only [Option.bind_eq_bind, Option.bind_some, skipBlanks_append hbs (c := ':') rfl, h,
    skipBlanks_append hbs' (c := ',') rfl]
  cases readMembers fuel (skipBlanks cs') <;> rfl

mutual

/-- **Every spelling of a document is read as that document**, with as much fuel as it has
characters. -/
theorem readValue_spells {j : Json} {cs : List Char} (h : Spells j cs) (fuel : Nat)
    (hfuel : cs.length ≤ fuel) (rest : List Char) (hrest : EndsNumber rest) :
    readValue fuel (cs ++ rest) = some (j, rest) := by
  obtain ⟨c, ds, hcs, hc⟩ := h.exists_cons
  obtain ⟨fuel, rfl⟩ : ∃ f, fuel = f + 1 :=
    Nat.exists_eq_add_one.mpr (Nat.lt_of_lt_of_le (by simp [hcs]) hfuel)
  cases h with
  | null => rfl
  | bool b => cases b <;> rfl
  | @number n hn =>
    obtain ⟨c, ds, hds, hc⟩ := n.exists_chars
    have hnumber := readNumber_chars hn hrest
    rw [hds, List.cons_append] at hnumber ⊢
    rw [readValue_number fuel hc, hnumber]
    rfl
  | @string t ht =>
    rw [Text.chars_append, readValue, ht rest]
    rfl
  | @emptyArray bs hbs =>
    rw [List.cons_append, List.append_assoc, readValue, List.singleton_append,
      skipBlanks_append hbs (c := ']') rfl]
    rfl
  | @array items bs cs hbs h =>
    obtain ⟨c, ds, hcs, hc⟩ := h.exists_cons
    rw [List.length_cons, List.length_append] at hfuel
    have hitems := readItems_spells h fuel (by omega) rest
    rw [hcs, List.cons_append] at hitems
    rw [List.cons_append, List.append_assoc, hcs, List.cons_append, readValue_array hbs hc, hitems]
    rfl
  | @emptyObject bs hbs =>
    rw [List.cons_append, List.append_assoc, readValue, List.singleton_append,
      skipBlanks_append hbs (c := '}') rfl]
    rfl
  | @object members bs cs hbs h =>
    obtain ⟨ds, hcs⟩ := h.exists_cons
    rw [List.length_cons, List.length_append] at hfuel
    have hmembers := readMembers_spells h fuel (by omega) rest
    rw [hcs, List.cons_append] at hmembers
    rw [List.cons_append, List.append_assoc, hcs, List.cons_append, readValue_object hbs, hmembers]
    rfl

theorem readItems_spells {items : List Json} {cs : List Char} (h : SpellsItems items cs)
    (fuel : Nat) (hfuel : cs.length ≤ fuel) (rest : List Char) :
    readItems fuel (cs ++ rest) = some (items, rest) := by
  obtain ⟨c, ds, hcs, hc⟩ := h.exists_cons
  obtain ⟨fuel, rfl⟩ : ∃ f, fuel = f + 1 :=
    Nat.exists_eq_add_one.mpr (Nat.lt_of_lt_of_le (by simp [hcs]) hfuel)
  cases h with
  | @last item cs bs h hbs =>
    rw [List.length_append, List.length_append, List.length_singleton] at hfuel
    have hitem := readValue_spells h fuel (by omega) (bs ++ ']' :: rest)
      (endsNumber_append hbs (by decide) rest)
    rw [List.append_assoc, List.append_assoc]
    exact readItems_last hitem hbs
  | @more item items cs bs bs' ds h hbs hbs' hlater =>
    simp only [List.length_append, List.length_cons] at hfuel
    have hitem := readValue_spells h fuel (by omega) (bs ++ ',' :: (bs' ++ (ds ++ rest)))
      (endsNumber_append hbs (by decide) _)
    have hitems := readItems_spells hlater fuel (by omega) rest
    obtain ⟨c, ds', hds, hc⟩ := hlater.exists_cons
    rw [List.append_assoc, List.append_assoc, List.cons_append, List.append_assoc,
      readItems_more hitem hbs, hds, List.cons_append, skipBlanks_append hbs' hc.1]
    rw [hds, List.cons_append] at hitems
    rw [hitems]
    rfl

theorem readMembers_spells {members : List (Text × Json)} {cs : List Char}
    (h : SpellsMembers members cs) (fuel : Nat) (hfuel : cs.length ≤ fuel) (rest : List Char) :
    readMembers fuel (cs ++ rest) = some (members, rest) := by
  obtain ⟨ds, hcs⟩ := h.exists_cons
  obtain ⟨fuel, rfl⟩ : ∃ f, fuel = f + 1 :=
    Nat.exists_eq_add_one.mpr (Nat.lt_of_lt_of_le (by simp [hcs]) hfuel)
  cases h with
  | @last key value b₁ b₂ b₃ cs hkey hb₁ hb₂ h hb₃ =>
    simp only [List.length_append, List.length_cons] at hfuel
    have hvalue := readValue_spells h fuel (by omega) (b₃ ++ '}' :: rest)
      (endsNumber_append hb₃ (by decide) rest)
    obtain ⟨c, ds, rfl, hc⟩ := h.exists_cons
    rw [List.cons_append, ← skipBlanks_append hb₂ hc.1] at hvalue
    simp only [List.append_assoc, List.cons_append, List.nil_append]
    exact readMembers_last hkey hb₁ hvalue hb₃
  | @more key value members b₁ b₂ b₃ b₄ cs ds hkey hb₁ hb₂ h hb₃ hb₄ hlater =>
    simp only [List.length_append, List.length_cons] at hfuel
    have hvalue := readValue_spells h fuel (by omega) (b₃ ++ ',' :: (b₄ ++ (ds ++ rest)))
      (endsNumber_append hb₃ (by decide) _)
    have hmembers := readMembers_spells hlater fuel (by omega) rest
    obtain ⟨c, ds', rfl, hc⟩ := h.exists_cons
    obtain ⟨ds'', rfl⟩ := hlater.exists_cons
    rw [List.cons_append, ← skipBlanks_append hb₂ hc.1] at hvalue
    have hwhole := readMembers_more hkey hb₁ hvalue hb₃
    rw [List.cons_append, skipBlanks_append hb₄ (c := '"') rfl] at hwhole
    rw [List.cons_append] at hmembers
    simp only [List.append_assoc, List.cons_append, hwhole, hmembers]
    rfl

end

theorem blank_nil : Blank [] := fun _ hc => nomatch hc

/-- **Every spelling of a document is read.** -/
theorem readChars?_spells {j : Json} {cs : List Char} (h : Spells j cs) :
    readChars? cs = some j := by
  obtain ⟨c, ds, hcs, hc⟩ := h.exists_cons
  have hvalue := readValue_spells h (cs.length + 1) (Nat.le_succ _) [] fun _ hc => nomatch hc
  have hblanks : skipBlanks cs = cs := hcs ▸ skipBlanks_append blank_nil hc.1 ds
  rw [List.append_nil] at hvalue
  rw [readChars?, hblanks, hvalue]
  rfl

/-! ## The printers -/

/-- **Whether a document can be written**: each of its literals can. -/
inductive Legible : Json → Prop
  | null : Legible .null
  | bool (b : Bool) : Legible (.bool b)
  | number {n : Number} (hn : n.Legible) : Legible (.number n)
  | string {t : Text} (ht : t.Legible) : Legible (.string t)
  | array {items : List Json} (hitems : ∀ item ∈ items, Legible item) : Legible (.array items)
  | object {members : List (Text × Json)} (hkeys : ∀ member ∈ members, member.1.Legible)
    (hvalues : ∀ member ∈ members, Legible member.2) : Legible (.object members)

/-- The items of an array are spelled without blanks.  The induction is on the items after the
first. -/
theorem spellsItems_itemsChars (item : Json) (items : List Json)
    (h : ∀ j ∈ item :: items, Spells j j.chars) :
    SpellsItems (item :: items) (itemsChars (item :: items) ++ [']']) := by
  induction items generalizing item with
  | nil => exact .last (h item List.mem_cons_self) blank_nil
  | cons next items ih =>
    have hlater := ih next fun j hj => h j (List.mem_cons_of_mem _ hj)
    have hwhole := SpellsItems.more (h item List.mem_cons_self) blank_nil blank_nil hlater
    simpa only [itemsChars, List.nil_append, List.append_assoc, List.cons_append] using hwhole

/-- So are the members of an object. -/
theorem spellsMembers_membersChars (member : Text × Json) (members : List (Text × Json))
    (hkeys : ∀ m ∈ member :: members, m.1.Legible)
    (h : ∀ m ∈ member :: members, Spells m.2 m.2.chars) :
    SpellsMembers (member :: members) (membersChars (member :: members) ++ ['}']) := by
  induction members generalizing member with
  | nil =>
    have hwhole := SpellsMembers.last (hkeys member List.mem_cons_self) blank_nil blank_nil
      (h member List.mem_cons_self) blank_nil
    simpa only [membersChars, List.nil_append, List.append_assoc, List.cons_append] using hwhole
  | cons next members ih =>
    have hlater := ih next (fun m hm => hkeys m (List.mem_cons_of_mem _ hm))
      fun m hm => h m (List.mem_cons_of_mem _ hm)
    have hwhole := SpellsMembers.more (hkeys member List.mem_cons_self) blank_nil blank_nil
      (h member List.mem_cons_self) blank_nil blank_nil hlater
    simpa only [membersChars, List.nil_append, List.append_assoc, List.cons_append] using hwhole

/-- **A document is spelled without blanks.** -/
theorem Legible.spells_chars {j : Json} (h : Legible j) : Spells j j.chars := by
  induction h with
  | null => exact .null
  | bool b => exact .bool b
  | number hn => exact .number hn
  | string ht => exact .string ht
  | @array items _ ih =>
    cases items with
    | nil => exact .emptyArray blank_nil
    | cons item items =>
      exact @Spells.array _ [] _ blank_nil (spellsItems_itemsChars item items ih)
  | @object members hkeys _ ih =>
    cases members with
    | nil => exact .emptyObject blank_nil
    | cons member members =>
      exact @Spells.object _ [] _ blank_nil (spellsMembers_membersChars member members hkeys ih)

theorem blank_lineBreak (depth : Nat) : Blank (lineBreak depth) := by
  intro c hc
  rcases List.mem_cons.mp hc with rfl | hc
  · rfl
  · rw [List.eq_of_mem_replicate hc]
    rfl

/-- The items of an array are spelled on lines of their own; the blanks before the first of them
belong to the array. -/
theorem spellsItems_prettyItems (depth closing : Nat) (item : Json) (items : List Json)
    (h : ∀ j ∈ item :: items, Spells j (j.prettyChars depth)) :
    ∃ cs, prettyItems depth (item :: items) ++ (lineBreak closing ++ [']']) = lineBreak depth ++ cs
      ∧ SpellsItems (item :: items) cs := by
  induction items generalizing item with
  | nil =>
    exact ⟨_, List.append_assoc .., .last (h item List.mem_cons_self) (blank_lineBreak closing)⟩
  | cons next items ih =>
    obtain ⟨cs, hcs, hlater⟩ := ih next fun j hj => h j (List.mem_cons_of_mem _ hj)
    refine ⟨_, ?_, .more (h item List.mem_cons_self) blank_nil (blank_lineBreak depth) hlater⟩
    simp only [prettyItems, List.append_assoc, List.cons_append, hcs, List.nil_append]

/-- So are the members of an object. -/
theorem spellsMembers_prettyMembers (depth closing : Nat) (member : Text × Json)
    (members : List (Text × Json)) (hkeys : ∀ m ∈ member :: members, m.1.Legible)
    (h : ∀ m ∈ member :: members, Spells m.2 (m.2.prettyChars depth)) :
    ∃ cs, prettyMembers depth (member :: members) ++ (lineBreak closing ++ ['}'])
        = lineBreak depth ++ cs ∧ SpellsMembers (member :: members) cs := by
  have hspace : Blank [' '] := by
    rintro c hc
    rw [List.mem_singleton.mp hc]
    rfl
  induction members generalizing member with
  | nil =>
    refine ⟨_, ?_, .last (hkeys member List.mem_cons_self) blank_nil hspace
      (h member List.mem_cons_self) (blank_lineBreak closing)⟩
    simp only [prettyMembers, List.append_assoc, List.cons_append, List.nil_append]
  | cons next members ih =>
    obtain ⟨cs, hcs, hlater⟩ := ih next (fun m hm => hkeys m (List.mem_cons_of_mem _ hm))
      fun m hm => h m (List.mem_cons_of_mem _ hm)
    refine ⟨_, ?_, .more (hkeys member List.mem_cons_self) blank_nil hspace
      (h member List.mem_cons_self) blank_nil (blank_lineBreak depth) hlater⟩
    simp only [prettyMembers, List.append_assoc, List.cons_append, List.nil_append, hcs]

/-- **A document is spelled over several lines**, at any depth. -/
theorem Legible.spells_prettyChars {j : Json} (h : Legible j) (depth : Nat) :
    Spells j (j.prettyChars depth) := by
  induction h generalizing depth with
  | null => exact .null
  | bool b => exact .bool b
  | number hn => exact .number hn
  | string ht => exact .string ht
  | @array items _ ih =>
    cases items with
    | nil => exact .emptyArray blank_nil
    | cons item items =>
      obtain ⟨cs, hcs, hitems⟩ := spellsItems_prettyItems (depth + 1) depth item items
        fun j hj => ih j hj (depth + 1)
      have hwhole := Spells.array (blank_lineBreak (depth + 1)) hitems
      rw [← hcs, ← List.append_assoc] at hwhole
      exact hwhole
  | @object members hkeys _ ih =>
    cases members with
    | nil => exact .emptyObject blank_nil
    | cons member members =>
      obtain ⟨cs, hcs, hmembers⟩ := spellsMembers_prettyMembers (depth + 1) depth member members
        hkeys fun m hm => ih m hm (depth + 1)
      have hwhole := Spells.object (blank_lineBreak (depth + 1)) hmembers
      rw [← hcs, ← List.append_assoc] at hwhole
      exact hwhole

/-- **What is written without blanks is read.** -/
theorem Legible.read?_compact {j : Json} (h : Legible j) : read? j.compact = some j := by
  rw [read?, compact, String.toList_ofList]
  exact readChars?_spells h.spells_chars

/-- **What is written over several lines is read.** -/
theorem Legible.read?_pretty {j : Json} (h : Legible j) : read? j.pretty = some j := by
  rw [read?, pretty, String.toList_ofList]
  exact readChars?_spells (h.spells_prettyChars 0)

end BlockCoding.Json
