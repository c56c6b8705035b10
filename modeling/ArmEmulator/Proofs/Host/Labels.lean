import ArmEmulator.Host.Encoding

/-!
# Labels of host code

Encoding fails exactly when a jump goes to a label that no cell places.

Main results:

- Theorem {lit}`Code.encode?_isSome_iff`: code has an encoding exactly when every
  jump goes to a label that it places.
- Theorem {lit}`Code.length_of_encode?`: the encoding has the size of the code.
- Theorem {lit}`Code.encodeFrom_append`: code in two parts is laid out one part behind
  the other.
-/

namespace ArmEmulator.Host.Code

/-- A label has a place exactly when some cell places it. -/
theorem mem_map_fst_places {code : Code} {l : Label} (pos : Nat) :
    l ∈ (code.places pos).map Prod.fst ↔ Item.label l ∈ code := by
  induction code generalizing pos with
  | nil => simp [places]
  | cons item rest ih =>
      cases item with
      | instr i => simpa [places] using ih (pos + (Item.instr i).size)
      | jump cc target => simpa [places] using ih (pos + (Item.jump cc target).size)
      | label l' => simpa [places] using or_congr_right (ih pos)

/-- Looking a label up succeeds exactly when some cell places it. -/
theorem lookup_places_isSome_iff {code : Code} {l : Label} :
    ((code.places 0).reverse.lookup l).isSome ↔ Item.label l ∈ code := by
  rw [← mem_map_fst_places 0, ← List.mem_reverse, ← List.map_reverse]
  induction (code.places 0).reverse with
  | nil => simp
  | cons entry entries ih =>
      rw [List.lookup_cons, List.map_cons, List.mem_cons]
      by_cases h : l = entry.1
      · simp [h]
      · rw [beq_false_of_ne h, ih]
        simp [h]

/-- The bytes of one item laid out at a position. -/
def itemBytes? (place? : Label → Option Nat) (pos : Nat) : Item → Option (List Byte)
  | .instr i => some i.encode
  | .jump cc target =>
    (place? target).map fun place : Nat =>
      [0x0f, (0x8#4 ++ cc.code : Byte)] ++
        imm32 (BitVec.ofInt 32 (place - (pos + (Item.jump cc target).size)))
  | .label _ => some []

theorem encodeFrom_cons (place? : Label → Option Nat) (pos : Nat) (item : Item) (rest : Code) :
    encodeFrom place? pos (item :: rest) =
      (itemBytes? place? pos item).bind fun bytes =>
        (encodeFrom place? (pos + item.size) rest).map (bytes ++ ·) := by
  cases htail : encodeFrom place? (pos + item.size) rest with
  | none => cases item <;> simp [encodeFrom, itemBytes?, htail]
  | some tail =>
      cases item with
      | instr i => simp [encodeFrom, itemBytes?, htail]
      | jump cc target => cases h : place? target <;> simp [encodeFrom, itemBytes?, htail, h]
      | label l => simp [encodeFrom, itemBytes?, htail]

theorem length_of_itemBytes? {place? : Label → Option Nat} {pos : Nat} {item : Item}
    {bytes : List Byte} (h : itemBytes? place? pos item = some bytes) :
    bytes.length = item.size := by
  cases item with
  | instr i =>
      cases h
      rfl
  | jump cc target =>
      obtain ⟨place, -, rfl⟩ := Option.map_eq_some_iff.1 h
      rw [List.length_append, imm32, length_littleEndian]
      rfl
  | label l =>
      cases h
      rfl

/-- Only a jump to a label without a place has no bytes. -/
theorem itemBytes?_isSome_iff {place? : Label → Option Nat} {pos : Nat} {item : Item} :
    (itemBytes? place? pos item).isSome ↔ ∀ cc l, Item.jump cc l = item → (place? l).isSome := by
  cases item with
  | instr i => simp [itemBytes?]
  | jump cc target => simp [itemBytes?]
  | label l => simp [itemBytes?]

/-- Code laid out from a position has bytes exactly when the target of every jump
has a place. -/
theorem encodeFrom_isSome_iff {place? : Label → Option Nat} {code : Code} (pos : Nat) :
    (encodeFrom place? pos code).isSome ↔
      ∀ cc l, Item.jump cc l ∈ code → (place? l).isSome := by
  induction code generalizing pos with
  | nil => simp [encodeFrom]
  | cons item rest ih =>
      have hitem : (encodeFrom place? pos (item :: rest)).isSome ↔
          (itemBytes? place? pos item).isSome ∧
            (encodeFrom place? (pos + item.size) rest).isSome := by
        rw [encodeFrom_cons]
        cases itemBytes? place? pos item <;> simp
      rw [hitem, ih, itemBytes?_isSome_iff]
      constructor
      · rintro ⟨hhead, htail⟩ cc l hmem
        rcases List.mem_cons.1 hmem with heq | hmem
        · exact hhead cc l heq
        · exact htail cc l hmem
      · intro hall
        exact ⟨fun cc l heq => hall cc l (heq ▸ List.mem_cons_self ..),
          fun cc l hmem => hall cc l (List.mem_cons_of_mem _ hmem)⟩

/-- Code has an encoding exactly when every jump goes to a label that it places. -/
theorem encode?_isSome_iff {code : Code} :
    (encode? code).isSome ↔ ∀ cc l, Item.jump cc l ∈ code → Item.label l ∈ code := by
  unfold encode?
  rw [encodeFrom_isSome_iff]
  simp only [lookup_places_isSome_iff]

/-- Code laid out from a position takes as many bytes as its size says. -/
theorem length_of_encodeFrom {place? : Label → Option Nat} {code : Code} {pos : Nat}
    {bytes : List Byte} (h : encodeFrom place? pos code = some bytes) :
    bytes.length = code.size := by
  induction code generalizing pos bytes with
  | nil =>
      cases h
      rfl
  | cons item rest ih =>
      rw [encodeFrom_cons] at h
      obtain ⟨head, hhead, h⟩ := Option.bind_eq_some_iff.1 h
      obtain ⟨tail, htail, rfl⟩ := Option.map_eq_some_iff.1 h
      rw [List.length_append, length_of_itemBytes? hhead, ih htail, size_cons]

/-- The encoding has the size of the code. -/
theorem length_of_encode? {code : Code} {bytes : List Byte} (h : encode? code = some bytes) :
    bytes.length = code.size :=
  length_of_encodeFrom h

/-- Code in two parts is laid out one part behind the other. -/
theorem encodeFrom_append (place? : Label → Option Nat) (pos : Nat) (code rest : Code) :
    encodeFrom place? pos (code ++ rest) =
      (encodeFrom place? pos code).bind fun bytes =>
        (encodeFrom place? (pos + size code) rest).map (bytes ++ ·) := by
  induction code generalizing pos with
  | nil =>
      show _ = (encodeFrom place? (pos + 0) rest).map ([] ++ ·)
      simp
  | cons item code ih =>
      rw [List.cons_append, encodeFrom_cons, encodeFrom_cons, ih, size_cons, Nat.add_assoc]
      cases itemBytes? place? pos item with
      | none => rfl
      | some head =>
          cases encodeFrom place? (pos + item.size) code with
          | none => rfl
          | some middle => simp [Function.comp_def]

/-- The bytes of code in two parts are those of the parts, each of the size of its
part. -/
theorem exists_of_encodeFrom_append {place? : Label → Option Nat} {pos : Nat}
    {code rest : Code} {bytes : List Byte}
    (h : encodeFrom place? pos (code ++ rest) = some bytes) :
    ∃ front back, bytes = front ++ back ∧ front.length = code.size ∧
      encodeFrom place? pos code = some front ∧
      encodeFrom place? (pos + size code) rest = some back := by
  rw [encodeFrom_append] at h
  obtain ⟨front, hfront, h⟩ := Option.bind_eq_some_iff.1 h
  obtain ⟨back, hback, rfl⟩ := Option.map_eq_some_iff.1 h
  exact ⟨front, back, rfl, length_of_encodeFrom hfront, hfront, hback⟩

end ArmEmulator.Host.Code
