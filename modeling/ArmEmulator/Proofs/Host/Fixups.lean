import ArmEmulator.Proofs.Host.Decoding

/-!
# Jumps resolved in place

Code can also be put down as bytes call by call.  A jump is put down before the place of
its label is known, so the field of its distance is noted, and the distances are written
over these fields at the end, one after the other.  The bytes are those that the assembler
lays out with all places known.

Main results:

- Theorem {lit}`Buffer.finish?_foldl`: writing the distances over their fields gives the
  bytes of the assembler, or none where it gives none.
- Theorem {lit}`Assembler.Call.finish?_resolves`: only a jump to a label that is never bound
  leaves calls without bytes; otherwise the fields hold the distances to the places of the
  labels, and the other bytes are as they were put down.
-/

namespace ArmEmulator.Host

/-! ## Writing over bytes -/

/-- The bytes with a field written over those from a position on. -/
def overwrite (pos : Nat) : List Byte → List Byte → List Byte
  | bytes, [] => bytes
  | bytes, b :: field => overwrite (pos + 1) (bytes.set pos b) field

@[simp]
theorem length_overwrite (pos : Nat) (bytes field : List Byte) :
    (overwrite pos bytes field).length = bytes.length := by
  induction field generalizing pos bytes with
  | nil => rfl
  | cons b field ih => rw [overwrite, ih, List.length_set]

/-- A field written over one of its length replaces it. -/
theorem overwrite_append (front back : List Byte) {old field : List Byte}
    (h : old.length = field.length) :
    overwrite front.length (front ++ old ++ back) field = front ++ field ++ back := by
  induction field generalizing front old with
  | nil => rw [List.eq_nil_of_length_eq_zero h, overwrite]
  | cons b field ih =>
      cases old with
      | nil => simp at h
      | cons a old =>
          have hset : (front ++ a :: old ++ back).set front.length b =
              (front ++ [b]) ++ old ++ back := by
            simp
          have hlength : front.length + 1 = (front ++ [b]).length := by simp
          rw [overwrite, hset, hlength, ih (front ++ [b]) (by simpa using h)]
          simp

/-- Bytes outside of a field are left alone. -/
theorem getElem?_overwrite {pos p : Nat} {bytes field : List Byte}
    (h : p < pos ∨ pos + field.length ≤ p) :
    (overwrite pos bytes field)[p]? = bytes[p]? := by
  induction field generalizing pos bytes with
  | nil => rfl
  | cons b field ih =>
      rw [List.length_cons] at h
      rw [overwrite, ih (by omega), List.getElem?_set_ne (by omega)]

/-! ## Code before its jumps are resolved -/

/-- The bytes of an item as they are first put down: a jump has no distance yet. -/
def Item.emitted : Item → List Byte
  | .instr i => i.encode
  | .jump cc _ => [0x0f, (0x8#4 ++ cc.code : Byte)] ++ imm32 0
  | .label _ => []

/-- The distance that a jump holds in a field at a position, to a place. -/
def distanceTo (place pos : Nat) : BitVec 32 :=
  BitVec.ofInt 32 (place - (pos + 4))

/-- Within 2 GiB the distance leads from the end of the field to the place. -/
theorem toInt_distanceTo {place pos : Nat} (hplace : place < 0x80000000)
    (hpos : pos + 4 < 0x80000000) : (distanceTo place pos).toInt + (pos + 4) = place := by
  have hfits : (distanceTo place pos).toInt = place - (pos + 4) := by
    rw [distanceTo, BitVec.toInt_ofInt]
    exact Int.bmod_eq_of_le_mul_two (by omega) (by omega)
  rw [hfits, Int.sub_add_cancel]

/-- The bytes with the distance to its label written over each of some fields, one field
after the other; none if a label has no place. -/
def patch (place? : Label → Option Nat) : List Byte → List (Nat × Label) → Option (List Byte)
  | bytes, [] => some bytes
  | bytes, (pos, l) :: fixups => do
    let place ← place? l
    patch place? (overwrite pos bytes (imm32 (distanceTo place pos))) fixups

/-- Writing distances over fields leaves the bytes outside of the fields alone. -/
theorem getElem?_of_patch {place? : Label → Option Nat} {fixups : List (Nat × Label)}
    {bytes bytes' : List Byte} {p : Nat} (h : patch place? bytes fixups = some bytes')
    (houtside : ∀ pos l, (pos, l) ∈ fixups → p < pos ∨ pos + 4 ≤ p) :
    bytes'[p]? = bytes[p]? := by
  induction fixups generalizing bytes with
  | nil =>
      cases h
      rfl
  | cons fixup fixups ih =>
      obtain ⟨pos, l⟩ := fixup
      obtain ⟨place, -, hrest⟩ := Option.bind_eq_some_iff.1 h
      have hhere : p < pos ∨ pos + 4 ≤ p := houtside pos l (List.mem_cons_self ..)
      rw [ih hrest fun pos' l' hmem => houtside pos' l' (List.mem_cons_of_mem _ hmem)]
      apply getElem?_overwrite
      rwa [imm32, length_littleEndian]

namespace Code

/-- The bytes of code as they are first put down. -/
def emitted (code : Code) : List Byte :=
  code.flatMap Item.emitted

/-- The fields for the distances of the jumps in code from a position on, each with the
label that its jump goes to. -/
def fixups (pos : Nat) : Code → List (Nat × Label)
  | [] => []
  | .jump cc l :: rest => (pos + 2, l) :: fixups (pos + (Item.jump cc l).size) rest
  | item :: rest => fixups (pos + item.size) rest

theorem length_emitted_item (item : Item) : item.emitted.length = item.size := by
  cases item with
  | instr i => rfl
  | jump cc l => simp [Item.emitted, Item.size, imm32, length_littleEndian]
  | label l => rfl

@[simp]
theorem emitted_nil : emitted [] = [] := rfl

@[simp]
theorem emitted_cons (item : Item) (code : Code) :
    emitted (item :: code) = item.emitted ++ emitted code := by
  simp [emitted]

@[simp]
theorem emitted_append (code rest : Code) :
    emitted (code ++ rest) = emitted code ++ emitted rest := by
  simp [emitted]

@[simp]
theorem length_emitted (code : Code) : (emitted code).length = code.size := by
  induction code with
  | nil => rfl
  | cons item code ih => rw [emitted_cons, List.length_append, length_emitted_item, ih, size_cons]

theorem fixups_append (pos : Nat) (code rest : Code) :
    fixups pos (code ++ rest) = fixups pos code ++ fixups (pos + size code) rest := by
  induction code generalizing pos with
  | nil => rfl
  | cons item code ih =>
      rw [size_cons, ← Nat.add_assoc]
      cases item with
      | jump cc l => exact congrArg ((pos + 2, l) :: ·) (ih _)
      | _ => exact ih _

theorem places_append (pos : Nat) (code rest : Code) :
    places pos (code ++ rest) = places pos code ++ places (pos + size code) rest := by
  induction code generalizing pos with
  | nil => rfl
  | cons item code ih =>
      rw [size_cons, ← Nat.add_assoc]
      cases item with
      | label l => exact congrArg ((l, pos) :: ·) (ih _)
      | _ => exact ih _

/-- An item behind code gives a label a place only if it is a cell of this label. -/
theorem place?_concat (code : Code) (item : Item) (l : Label) :
    place? (code ++ [item]) l = if item = .label l then some code.size else code.place? l := by
  unfold place?
  rw [places_append, Nat.zero_add]
  cases item with
  | label l' =>
      by_cases h : l' = l
      · simp [places, h]
      · have hne : (l == l') = false := beq_false_of_ne (Ne.symm h)
        simp [places, List.lookup_cons, h, hne]
  | _ => simp [places]

/-- A label has the place of its last cell. -/
theorem place?_of_not_mem (code : Code) {rest : Code} {l : Label} (h : Item.label l ∉ rest) :
    place? (code ++ .label l :: rest) l = some code.size := by
  have hbehind : (places code.size rest).reverse.lookup l = none := by
    rw [List.lookup_eq_none_iff]
    intro entry hentry
    apply bne_iff_ne.2
    intro heq
    have hmem := List.mem_map_of_mem (f := Prod.fst) (List.mem_reverse.1 hentry)
    exact h ((mem_map_fst_places code.size).1 (heq ▸ hmem))
  rw [place?, places_append, Nat.zero_add, places, List.reverse_append, List.reverse_cons,
    List.append_assoc, List.lookup_append, hbehind]
  simp

/-- Writing a distance over the field of a jump, wherever the jump lies. -/
theorem overwrite_jump (cc : Cc) (l : Label) (distance : BitVec 32) (front back : List Byte) :
    overwrite (front.length + 2) (front ++ (Item.jump cc l).emitted ++ back) (imm32 distance) =
      front ++ ([0x0f, (0x8#4 ++ cc.code : Byte)] ++ imm32 distance) ++ back := by
  have hfield : (imm32 0).length = (imm32 distance).length := by simp [imm32]
  have h := overwrite_append (front ++ [0x0f, (0x8#4 ++ cc.code : Byte)]) back hfield
  simpa [Item.emitted] using h

/-- A jump is laid out with the distance from the end of its field. -/
theorem itemBytes?_jump {place? : Label → Option Nat} {pos place : Nat} (cc : Cc) {l : Label}
    (h : place? l = some place) :
    itemBytes? place? pos (.jump cc l) =
      some ([0x0f, (0x8#4 ++ cc.code : Byte)] ++ imm32 (distanceTo place (pos + 2))) := by
  have hdistance : distanceTo place (pos + 2) =
      BitVec.ofInt 32 (place - (pos + (Item.jump cc l).size)) := by
    rw [distanceTo, Int.natCast_add, Int.add_assoc]
    rfl
  rw [itemBytes?, h, hdistance]
  rfl

/-- Writing the distances over the fields of code, wherever it lies, gives the bytes of the
code laid out there. -/
theorem patch_emitted (place? : Label → Option Nat) (code : Code) (front back : List Byte) :
    patch place? (front ++ emitted code ++ back) (fixups front.length code) =
      (encodeFrom place? front.length code).map (front ++ · ++ back) := by
  induction code generalizing front with
  | nil => rfl
  | cons item code ih =>
      -- once the item is as it is laid out, its bytes lie in front of the rest
      have hnext {bytes : List Byte} (h : bytes.length = item.size) :
          patch place? (front ++ (bytes ++ emitted code) ++ back)
              (fixups (front.length + item.size) code) =
            ((encodeFrom place? (front.length + item.size) code).map (bytes ++ ·)).map
              (front ++ · ++ back) := by
        rw [← h, ← List.length_append, ← List.append_assoc, ih]
        simp [Function.comp_def]
      rw [emitted_cons, encodeFrom_cons]
      cases item with
      | instr i => exact hnext rfl
      | label l => exact hnext rfl
      | jump cc l =>
          cases hplace : place? l with
          | none => simp [fixups, patch, itemBytes?, hplace]
          | some place =>
              have hitem : itemBytes? place? front.length (.jump cc l) = _ :=
                itemBytes?_jump cc hplace
              have hwritten := overwrite_jump cc l (distanceTo place (front.length + 2)) front
                (emitted code ++ back)
              rw [fixups, patch, hplace, hitem, Option.bind_some,
                ← hnext (length_of_itemBytes? hitem)]
              simp only [List.append_assoc] at hwritten ⊢
              exact congrArg (patch place? · _) hwritten

end Code

/-! ## Putting bytes down call by call -/

/-- Code under construction as bytes: the bytes so far, the places of the labels bound so
far, and the fields that wait for the distance to a label. -/
structure Buffer where
  bytes : List Byte
  place? : Label → Option Nat
  fixups : List (Nat × Label)

namespace Buffer

/-- No bytes yet. -/
def empty : Buffer where
  bytes := []
  place? := fun _ => none
  fixups := []

/-- Puts bytes down behind those so far. -/
def put (b : Buffer) (bytes : List Byte) : Buffer :=
  { b with bytes := b.bytes ++ bytes }

/-- Places a label behind the bytes so far. -/
def bind (b : Buffer) (l : Label) : Buffer :=
  { b with place? := fun l' => if l = l' then some b.bytes.length else b.place? l' }

/-- Puts a jump down without a distance, and notes the field that waits for it. -/
def jump (b : Buffer) (cc : Cc) (l : Label) : Buffer :=
  { b.put (Item.jump cc l).emitted with fixups := b.fixups ++ [(b.bytes.length + 2, l)] }

/-- What a call does to the bytes. -/
def apply (b : Buffer) : Assembler.Call → Buffer
  | .emit i => b.put i.encode
  | .pushTemporary r => b.put (Instr.push r).encode
  | .popTemporary r => b.put (Instr.pop r).encode
  | .newLabel => b
  | .bind l => b.bind l
  | .jump cc target => b.jump cc target

/-- The bytes with all distances written; none if a label of a field has no place. -/
def finish? (b : Buffer) : Option (List Byte) :=
  patch b.place? b.bytes b.fixups

/-- A buffer holds what code puts down. -/
structure Holds (b : Buffer) (code : Code) : Prop where
  bytes : b.bytes = code.emitted
  place : ∀ l, b.place? l = code.place? l
  fixups : b.fixups = code.fixups 0

theorem Holds.empty : empty.Holds [] where
  bytes := rfl
  place := fun _ => rfl
  fixups := rfl

theorem Holds.put {b : Buffer} {code : Code} (h : b.Holds code) (i : Instr) :
    (b.put i.encode).Holds (code ++ [.instr i]) where
  bytes := by simp [Buffer.put, h.bytes, Item.emitted]
  place l := by simp [Buffer.put, h.place, Code.place?_concat]
  fixups := by simp [Buffer.put, h.fixups, Code.fixups_append, Code.fixups]

theorem Holds.bind {b : Buffer} {code : Code} (h : b.Holds code) (l : Label) :
    (b.bind l).Holds (code ++ [.label l]) where
  bytes := by simp [Buffer.bind, h.bytes, Item.emitted]
  place l' := by simp [Buffer.bind, h.bytes, h.place, Code.place?_concat]
  fixups := by simp [Buffer.bind, h.fixups, Code.fixups_append, Code.fixups]

theorem Holds.jump {b : Buffer} {code : Code} (h : b.Holds code) (cc : Cc) (l : Label) :
    (b.jump cc l).Holds (code ++ [.jump cc l]) where
  bytes := by simp [Buffer.jump, Buffer.put, h.bytes]
  place l' := by simp [Buffer.jump, Buffer.put, h.place, Code.place?_concat]
  fixups := by simp [Buffer.jump, Buffer.put, h.bytes, h.fixups, Code.fixups_append, Code.fixups]

/-- A call puts down what it adds to the code. -/
theorem Holds.apply {b : Buffer} {code : Code} (h : b.Holds code) (call : Assembler.Call) :
    (b.apply call).Holds (code ++ call.item?.toList) := by
  cases call with
  | emit i => exact h.put i
  | pushTemporary r => exact h.put (.push r)
  | popTemporary r => exact h.put (.pop r)
  | newLabel => exact (List.append_nil code).symm ▸ h
  | bind l => exact h.bind l
  | jump cc target => exact h.jump cc target

/-- Calls put down the code that they make up. -/
theorem Holds.foldl {b : Buffer} {code : Code} (h : b.Holds code) (calls : List Assembler.Call) :
    (calls.foldl Buffer.apply b).Holds (code ++ Assembler.Call.code calls) := by
  induction calls generalizing b code with
  | nil => exact (List.append_nil code).symm ▸ h
  | cons call calls ih =>
      rw [Assembler.Call.code_cons, ← List.append_assoc]
      exact ih (h.apply call)

theorem Holds.finish? {b : Buffer} {code : Code} (h : b.Holds code) :
    b.finish? = code.encode? := by
  have hplace : b.place? = code.place? := funext h.place
  have hpatch := Code.patch_emitted code.place? code [] []
  simp only [List.nil_append, List.append_nil, List.length_nil, Option.map_id_fun'] at hpatch
  rw [Buffer.finish?, hplace, h.bytes, h.fixups, hpatch]
  rfl

/-- Writing the distances over their fields gives the bytes of the assembler. -/
theorem finish?_foldl (calls : List Assembler.Call) :
    (calls.foldl apply empty).finish? =
      (calls.foldl Assembler.Call.apply .empty).finish? := by
  rw [(Holds.empty.foldl calls).finish?, Assembler.finish?, Assembler.Call.code_foldl_apply]
  rfl

end Buffer

/-! ## Calls -/

namespace Assembler.Call

/-- The position that the assembler reports behind some calls. -/
def position (calls : List Call) : Nat :=
  (calls.foldl apply .empty).size

theorem position_eq (calls : List Call) : position calls = (code calls).size := by
  rw [position, Assembler.size, code_foldl_apply]
  rfl

theorem position_append (front back : List Call) :
    position (front ++ back) = position front + (code back).size := by
  simp [position_eq, code_append]

/-- A label has the place where it is bound last. -/
theorem place?_code_iff {calls : List Call} {l : Label} {place : Nat} :
    (code calls).place? l = some place ↔
      ∃ before after, calls = before ++ bind l :: after ∧ bind l ∉ after ∧
        place = position before := by
  have hlast {before after : List Call} (hcalls : calls = before ++ bind l :: after)
      (hafter : bind l ∉ after) : (code calls).place? l = some (position before) := by
    rw [hcalls, code_append, code_cons, position_eq]
    exact Code.place?_of_not_mem (code before) fun hmem => hafter (label_mem_code.1 hmem)
  constructor
  · intro hplace
    have hmem : bind l ∈ calls :=
      label_mem_code.1 (Code.lookup_places_isSome_iff.1 (Option.isSome_of_eq_some hplace))
    obtain ⟨behind, ahead, hreverse, hbehind⟩ :=
      List.eq_append_cons_of_mem (List.mem_reverse.2 hmem)
    have hcalls : calls = ahead.reverse ++ bind l :: behind.reverse := by
      simpa using congrArg List.reverse hreverse
    have hafter : bind l ∉ behind.reverse := fun hmem => hbehind (List.mem_reverse.1 hmem)
    refine ⟨ahead.reverse, behind.reverse, hcalls, hafter, ?_⟩
    exact Option.some.inj (hplace.symm.trans (hlast hcalls hafter))
  · rintro ⟨before, after, hcalls, hafter, rfl⟩
    exact hlast hcalls hafter

/-- Every field that waits for a distance is that of a jump among the calls. -/
theorem exists_jump_of_mem_fixups {calls : List Call} {pos field : Nat} {l : Label}
    (h : (field, l) ∈ (code calls).fixups pos) :
    ∃ front cc back, calls = front ++ jump cc l :: back ∧
      field = pos + (code front).size + 2 := by
  induction calls generalizing pos with
  | nil => cases h
  | cons call calls ih =>
      rw [code_cons, Code.fixups_append, List.mem_append] at h
      rcases h with hhere | hbehind
      · cases call with
        | jump cc target =>
            simp only [item?, Option.toList, Code.fixups, List.mem_singleton,
              Prod.mk.injEq] at hhere
            obtain ⟨rfl, rfl⟩ := hhere
            exact ⟨[], cc, calls, rfl, rfl⟩
        | _ => simp [item?, Code.fixups] at hhere
      · obtain ⟨front, cc, back, rfl, rfl⟩ := ih hbehind
        refine ⟨call :: front, cc, back, rfl, ?_⟩
        rw [code_cons, Code.size_append, Nat.add_assoc pos]

/-- The bytes of a jump behind some calls hold the distance from its end to the place of its
label. -/
theorem field_of_jump {calls front back : List Call} {cc : Cc} {l : Label} {bytes : List Byte}
    (hbytes : (code calls).encode? = some bytes) (hcalls : calls = front ++ jump cc l :: back) :
    ∃ place, (code calls).place? l = some place ∧
      (bytes.drop (position front + 2)).take 4 = imm32 (distanceTo place (position front + 2)) := by
  have hcode : code calls = code front ++ Item.jump cc l :: code back := by
    rw [hcalls, code_append, code_cons]
    rfl
  have hlaid : Code.encodeFrom (code calls).place? 0 (code front ++ .jump cc l :: code back) =
      some bytes := hcode ▸ hbytes
  obtain ⟨ahead, behind, rfl, hlength, -, hbehind⟩ := Code.exists_of_encodeFrom_append hlaid
  rw [Nat.zero_add, Code.encodeFrom_cons] at hbehind
  obtain ⟨own, hown, hrest⟩ := Option.bind_eq_some_iff.1 hbehind
  obtain ⟨tail, -, rfl⟩ := Option.map_eq_some_iff.1 hrest
  cases hplace : (code calls).place? l with
  | none => simp [Code.itemBytes?, hplace] at hown
  | some place =>
      rw [Code.itemBytes?_jump cc hplace] at hown
      refine ⟨place, rfl, ?_⟩
      rw [position_eq, ← Option.some.inj hown, ← hlength, ← List.drop_drop, List.drop_left]
      simp [imm32]

/-- In code of less than 2 GiB the distance of a jump, added to the position behind the jump,
is the position where its label is bound last. -/
theorem jump_resolves {calls front back : List Call} {cc : Cc} {l : Label} {bytes : List Byte}
    (hbytes : (code calls).encode? = some bytes) (hcalls : calls = front ++ jump cc l :: back)
    (hsize : position calls < 0x80000000) :
    ∃ before after distance, calls = before ++ bind l :: after ∧ bind l ∉ after ∧
      (bytes.drop (position front + 2)).take 4 = imm32 distance ∧
      distance.toInt + (position front + 6) = position before := by
  obtain ⟨place, hplace, hfield⟩ := field_of_jump hbytes hcalls
  obtain ⟨before, after, hbound, hafter, rfl⟩ := place?_code_iff.1 hplace
  have htarget : position before ≤ position calls := by
    rw [hbound, position_append]
    exact Nat.le_add_right ..
  have hend : position front + 6 ≤ position calls := by
    have hjump : (code (jump cc l :: back)).size = 6 + (code back).size := by
      rw [code_cons]
      rfl
    rw [hcalls, position_append, hjump]
    omega
  have hdistance : (distanceTo (position before) (position front + 2)).toInt +
      (position front + 2 + 4) = position before := toInt_distanceTo (by omega) (by omega)
  exact ⟨before, after, _, hbound, hafter, hfield, by omega⟩

/-- Any calls have bytes unless a jump goes to a label that is never bound.  The bytes are as
many as the assembler reports, and those outside the distances of jumps are as they were put
down.  In code of less than 2 GiB the distance of each jump, added to the position behind
the jump, is the position where its label is bound last. -/
theorem finish?_resolves (calls : List Call) :
    ((calls.foldl apply .empty).finish? = none ↔
      ∃ cc l, jump cc l ∈ calls ∧ bind l ∉ calls) ∧
    ∀ bytes, (calls.foldl apply .empty).finish? = some bytes →
      bytes.length = position calls ∧
      (∀ p, (∀ front cc l back, calls = front ++ jump cc l :: back →
          p < position front + 2 ∨ position front + 6 ≤ p) →
        bytes[p]? = (calls.foldl Buffer.apply .empty).bytes[p]?) ∧
      (position calls < 0x80000000 →
        ∀ front cc l back, calls = front ++ jump cc l :: back →
          ∃ before after distance, calls = before ++ bind l :: after ∧ bind l ∉ after ∧
            (bytes.drop (position front + 2)).take 4 = imm32 distance ∧
            distance.toInt + (position front + 6) = position before) := by
  have hfinish : (calls.foldl apply .empty).finish? = (code calls).encode? := by
    rw [Assembler.finish?, code_foldl_apply]
    rfl
  constructor
  · rw [hfinish, ← Option.not_isSome_iff_eq_none, Code.encode?_isSome_iff]
    simp [jump_mem_code, label_mem_code]
  · intro bytes hbytes
    have hencoded : (code calls).encode? = some bytes := hfinish ▸ hbytes
    refine ⟨?_, ?_, ?_⟩
    · rw [position_eq, Code.length_of_encode? hencoded]
    · intro p houtside
      have hheld : (calls.foldl Buffer.apply .empty).Holds (code calls) :=
        Buffer.Holds.empty.foldl calls
      have hpatched : (calls.foldl Buffer.apply .empty).finish? = some bytes :=
        (Buffer.finish?_foldl calls).trans hbytes
      apply getElem?_of_patch hpatched
      intro field l hmem
      obtain ⟨front, cc, back, hcalls, rfl⟩ := exists_jump_of_mem_fixups (hheld.fixups ▸ hmem)
      have hhere := houtside front cc l back hcalls
      rw [position_eq] at hhere
      omega
    · intro hsize front cc l back hcalls
      exact jump_resolves hencoded hcalls hsize

/-- A jump ahead over a return and a jump back to the start: the field of the second one is
that of a distance from its end to the start. -/
theorem finish?_resolves_aheadAndBack :
    ([newLabel, newLabel, bind 1, jump .e 0, emit .ret, bind 0, jump .ne 1].foldl apply
        .empty).finish? =
      some [0x0f, 0x84, 1, 0, 0, 0, 0xc3, 0x0f, 0x85, 0xf3, 0xff, 0xff, 0xff] ∧
    ∃ before after distance,
      [newLabel, newLabel, bind 1, jump .e 0, emit .ret, bind 0, jump .ne 1] =
        before ++ bind 1 :: after ∧
      bind 1 ∉ after ∧ imm32 distance = [0xf3, 0xff, 0xff, 0xff] ∧
      distance.toInt + 13 = position before := by
  have hbytes : ([newLabel, newLabel, bind 1, jump .e 0, emit .ret, bind 0, jump .ne 1].foldl apply
        .empty).finish? =
      some [0x0f, 0x84, 1, 0, 0, 0, 0xc3, 0x0f, 0x85, 0xf3, 0xff, 0xff, 0xff] := by decide
  obtain ⟨-, -, hjumps⟩ := (finish?_resolves _).2 _ hbytes
  obtain ⟨before, after, distance, hcalls, hafter, hfield, hdistance⟩ :=
    hjumps (by decide) [newLabel, newLabel, bind 1, jump .e 0, emit .ret, bind 0] .ne 1 [] rfl
  exact ⟨hbytes, before, after, distance, hcalls, hafter, hfield.symm, hdistance⟩

end Assembler.Call

end ArmEmulator.Host
