import ArmEmulator.Proofs.Bus.History
import ArmEmulator.Proofs.Emulator.Reach

/-!
# Loading an image

An image is loaded by changing the emulator step after step: its size is checked, then
its place, then it is copied, and at last processor, counters, mode and translated code
are reset one after the other.  None of the checks comes behind a change, so an image
that is rejected leaves the emulator as it was, and one that fits leaves nothing of what
ran before but what the devices and memory outside the image hold.

Main results:

- Theorem {lit}`Emulator.loadImageInPlace_eq`: loading in place is loading at once.
- Theorem {lit}`Emulator.loadImage_complete`: an image is loaded completely exactly when
  it is not empty and fits into memory, and nothing is changed otherwise.
-/

namespace ArmEmulator

/-! ## Images in memory -/

namespace Ram

variable {ram : Ram} {addr : Word} {bytes : List Byte}

/-- Copies bytes into memory if all of them lie in the window; tells whether they do. -/
def copyIn (ram : Ram) (addr : Word) (bytes : List Byte) : Bool × Ram :=
  match ram.offset? addr bytes.length with
  | some i => (true, ram.putBytes i bytes)
  | none => (false, ram)

/-- There are bytes, and the window holds all of them. -/
def Fits (ram : Ram) (addr : Word) (bytes : List Byte) : Prop :=
  bytes ≠ [] ∧ ∀ k < bytes.length, ram.Holds (addr.toNat + k)

/-- Bytes fit exactly when there are some and they have an offset. -/
theorem fits_iff :
    ram.Fits addr bytes ↔
      bytes ≠ [] ∧ ram.offset? addr bytes.length = some (addr.toNat - ram.base.toNat) := by
  refine and_congr_right fun hbytes => ?_
  have hwidth : 0 < bytes.length := List.length_pos_iff.2 hbytes
  rw [offset?_eq_some_iff_holds hwidth]
  constructor
  · intro hholds
    have := (hholds 0 hwidth).1
    exact ⟨by omega, hholds⟩
  · exact And.right

theorem offset?_of_not_fits (hbytes : bytes ≠ []) (h : ¬ram.Fits addr bytes) :
    ram.offset? addr bytes.length = none := by
  cases hoffset : ram.offset? addr bytes.length with
  | none => rfl
  | some i =>
      have hholds := (offset?_eq_some_iff_holds (List.length_pos_iff.2 hbytes)).1 hoffset
      exact absurd ⟨hbytes, hholds.2⟩ h

end Ram

/-- After a reset all registers but two are zero. -/
theorem Cpu.reg_reset (entry stackTop : Word) (r : Reg) :
    (reset entry stackTop).reg r = if r = .pc then entry else if r = .sp then stackTop else 0 := by
  cases r <;> rfl

namespace Emulator

variable {ω : Type} {e : Emulator ω} {image : List Byte} {addr? : Option Word}

/-! ## Loading in place -/

/-- Drops all translated code.  If the host does not let the cache be written again the
translator is dropped with it. -/
def dropCode (writable : Bool) (e : Emulator ω) : Emulator ω :=
  { e with translator? := e.translator?.bind fun t =>
      if t.cache.executable && !writable then none else some t.reset }

/-- Resets processor, counters, mode and translated code, one after the other. -/
def resetInPlace (writable : Bool) (entry : Word) : EStateM LoadError (Emulator ω) Unit := do
  modify fun e => { e with cpu := .reset entry e.config.stackTop }
  modify fun e => { e with instructions := 0 }
  modify fun e => { e with unhandled := 0 }
  modify fun e => { e with mode := .interpreted }
  modify (dropCode writable)

/-- Loads an image: the checks, the copy, then the reset.  What is changed before an error
stays changed. -/
def loadImageInPlace (writable : Bool) (image : List Byte) (addr? : Option Word) :
    EStateM LoadError (Emulator ω) Unit := do
  let e ← get
  let addr := addr?.getD e.config.defaultEntry
  if image.isEmpty then
    throw .empty
  else if e.bus.ram.contains addr image.length then
    modify fun e => { e with bus := { e.bus with ram := (e.bus.ram.copyIn addr image).2 } }
    resetInPlace writable addr
  else
    throw (.outOfRange addr image.length e.bus.ram.base e.bus.ram.endAddress)

/-- The emulator with an image at an offset in memory, reset to start at an address. -/
def started (writable : Bool) (e : Emulator ω) (i : Nat) (image : List Byte) (addr : Word) :
    Emulator ω :=
  dropCode writable
    { e with
      cpu := .reset addr e.config.stackTop
      bus := { e.bus with ram := e.bus.ram.putBytes i image }
      mode := .interpreted
      instructions := 0
      unhandled := 0 }

/-- Nothing to load is an error. -/
theorem loadImageInPlace_nil (writable : Bool) (addr? : Option Word) (e : Emulator ω) :
    loadImageInPlace writable [] addr? e = .error .empty e := rfl

section

variable (hbytes : image ≠ []) {addr : Word} (haddr : addr?.getD e.config.defaultEntry = addr)
include hbytes haddr

/-- Bytes without an offset are an error. -/
theorem loadImageInPlace_of_none (writable : Bool)
    (hoffset : e.bus.ram.offset? addr image.length = none) :
    loadImageInPlace writable image addr? e =
      .error (.outOfRange addr image.length e.bus.ram.base e.bus.ram.endAddress) e := by
  have hempty : ¬image.isEmpty = true := by simpa using hbytes
  have hcontains : ¬e.bus.ram.contains addr image.length = true := by
    rw [Ram.contains, hoffset]
    exact Bool.false_ne_true
  subst haddr
  show (if _ then _ else if _ then _ else _ : EStateM LoadError (Emulator ω) Unit) e = _
  rw [if_neg hempty, if_neg hcontains]
  rfl

/-- Bytes with an offset are copied there. -/
theorem loadImageInPlace_of_some (writable : Bool) {i : Nat}
    (hoffset : e.bus.ram.offset? addr image.length = some i) :
    loadImageInPlace writable image addr? e = .ok () (e.started writable i image addr) := by
  have hempty : ¬image.isEmpty = true := by simpa using hbytes
  have hcontains : e.bus.ram.contains addr image.length = true := by
    rw [Ram.contains, hoffset]
    rfl
  have hcopied : (e.bus.ram.copyIn addr image).2 = e.bus.ram.putBytes i image := by
    rw [Ram.copyIn, hoffset]
  subst haddr
  show (if _ then _ else if _ then _ else _ : EStateM LoadError (Emulator ω) Unit) e = _
  rw [if_neg hempty, if_pos hcontains, started, ← hcopied]
  rfl

end

theorem dropCode_true (e : Emulator ω) :
    e.dropCode true = { e with translator? := e.translator?.map (·.reset) } := by
  unfold dropCode
  cases e.translator? with
  | none => rfl
  | some t => simp

/-- On a host that lets the cache be written again, loading in place is loading at once. -/
theorem loadImageInPlace_eq (e : Emulator ω) (image : List Byte) (addr? : Option Word) :
    loadImageInPlace true image addr? e =
      match e.loadImage image addr? with
      | .ok e' => .ok () e'
      | .error err => .error err e := by
  by_cases hbytes : image = []
  · subst hbytes
    rfl
  have hempty : image.isEmpty = false := by simpa using hbytes
  unfold loadImage Ram.store?
  dsimp only
  rw [hempty]
  cases hoffset : e.bus.ram.offset? (addr?.getD e.config.defaultEntry) image.length with
  | none => exact loadImageInPlace_of_none hbytes rfl true hoffset
  | some i =>
      rw [loadImageInPlace_of_some hbytes rfl true hoffset, started, dropCode_true]
      rfl

/-! ## What a loaded image leaves -/

/-- The emulator {lit}`e'` is {lit}`e` with an image at an address, and starts there: nothing
but settings, devices, watches, counted accesses and the rest of memory is left of {lit}`e`. -/
structure Loaded (e : Emulator ω) (addr : Word) (image : List Byte) (e' : Emulator ω) : Prop where
  window : e'.bus.ram.base = e.bus.ram.base ∧ e'.bus.ram.size = e.bus.ram.size
  bytes : ∀ k (h : k < image.length),
    e'.bus.ram.byteAt (addr.toNat + k - e.bus.ram.base.toNat) = image[k]
  elsewhere : ∀ j, ¬(addr.toNat ≤ e.bus.ram.base.toNat + j ∧
      e.bus.ram.base.toNat + j < addr.toNat + image.length) →
    e'.bus.ram.byteAt j = e.bus.ram.byteAt j
  bus : e'.bus = { e.bus with ram := e'.bus.ram }
  registers : ∀ r, e'.cpu.reg r = if r = .pc then addr else if r = .sp then e.config.stackTop else 0
  status : e'.cpu.cpsr = 0x000000d3 ∧ e'.cpu.spsr = 0
  counters : e'.instructions = 0 ∧ e'.unhandled = 0
  mode : e'.mode = .interpreted
  code : ∀ t, e'.translator? = some t → t.blocks = ∅ ∧ t.offsets = ∅ ∧ t.cache.size = 0
  settings : e'.config = e.config ∧ e'.stopRequested = e.stopRequested

/-- A translator that is left has no code. -/
theorem code_of_dropCode {writable : Bool} {t : Translator}
    (h : (e.dropCode writable).translator? = some t) :
    t.blocks = ∅ ∧ t.offsets = ∅ ∧ t.cache.size = 0 := by
  obtain ⟨held, -, hkept⟩ := Option.bind_eq_some_iff.1 h
  split at hkept
  · cases hkept
  · cases hkept
    exact ⟨rfl, rfl, rfl⟩

theorem loaded_started (writable : Bool) {i : Nat} {addr : Word}
    (hoffset : e.bus.ram.offset? addr image.length = some i) :
    e.Loaded addr image (e.started writable i image addr) where
  window := ⟨Ram.base_putBytes .., Ram.size_putBytes ..⟩
  bytes k hk := by
    obtain ⟨haddr, -⟩ := Ram.offset?_eq_some_iff.1 hoffset
    show (e.bus.ram.putBytes i image).byteAt _ = _
    rw [Ram.byteAt_putBytes, if_pos (by omega),
      show addr.toNat + k - e.bus.ram.base.toNat - i = k by omega, List.getD_eq_getElem?_getD,
      List.getElem?_eq_getElem hk, Option.getD_some]
  elsewhere j hj := by
    obtain ⟨haddr, -⟩ := Ram.offset?_eq_some_iff.1 hoffset
    show (e.bus.ram.putBytes i image).byteAt _ = _
    rw [Ram.byteAt_putBytes]
    split
    · rw [List.getD_eq_getElem?_getD, List.getElem?_eq_none (by omega), Option.getD_none]
    · rfl
  bus := rfl
  registers := Cpu.reg_reset addr e.config.stackTop
  status := ⟨rfl, rfl⟩
  counters := ⟨rfl, rfl⟩
  mode := rfl
  code _ h := code_of_dropCode h
  settings := ⟨rfl, rfl⟩

/-- An image is loaded completely exactly when it is not empty and memory holds all its
bytes, whether or not the host lets the code cache be written again; otherwise the error
says what is wrong with the image, and the emulator is as it was. -/
theorem loadImage_complete (e : Emulator ω) (image : List Byte) (addr? : Option Word) :
    let addr := addr?.getD e.config.defaultEntry
    (∀ writable,
      (e.bus.ram.Fits addr image →
        ∃ e', loadImageInPlace writable image addr? e = .ok () e' ∧ e.Loaded addr image e') ∧
      (¬e.bus.ram.Fits addr image →
        loadImageInPlace writable image addr? e =
          .error (if image = [] then .empty else
            .outOfRange addr image.length e.bus.ram.base e.bus.ram.endAddress) e)) ∧
    loadImageInPlace true image addr? e =
      match e.loadImage image addr? with
      | .ok e' => .ok () e'
      | .error err => .error err e := by
  intro addr
  refine ⟨fun writable => ⟨fun hfits => ?_, fun hfits => ?_⟩, loadImageInPlace_eq e image addr?⟩
  · obtain ⟨hbytes, hoffset⟩ := Ram.fits_iff.1 hfits
    exact ⟨_, loadImageInPlace_of_some hbytes rfl writable hoffset,
      loaded_started writable hoffset⟩
  · by_cases hbytes : image = []
    · rw [if_pos hbytes, hbytes]
      exact loadImageInPlace_nil writable addr? e
    · rw [if_neg hbytes]
      exact loadImageInPlace_of_none hbytes rfl writable (Ram.offset?_of_not_fits hbytes hfits)

/-- An image over the last word of memory fits, and one that is a byte longer does not. -/
theorem loadImage_complete_lastWord :
    (∃ e', loadImageInPlace false [1, 2, 3, 4] (some 0xffc) setAndLoop = .ok () e' ∧
      setAndLoop.Loaded 0xffc [1, 2, 3, 4] e') ∧
    loadImageInPlace false [1, 2, 3, 4, 5] (some 0xffc) setAndLoop =
      .error (.outOfRange 0xffc 5 0 0x1000) setAndLoop := by
  have hcomplete (image : List Byte) := (loadImage_complete setAndLoop image (some 0xffc)).1 false
  have hfits : setAndLoop.bus.ram.Fits 0xffc [1, 2, 3, 4] := by
    rw [Ram.fits_iff]
    exact ⟨by decide, rfl⟩
  have hlonger : ¬setAndLoop.bus.ram.Fits 0xffc [1, 2, 3, 4, 5] := by
    rw [Ram.fits_iff]
    rintro ⟨-, hoffset⟩
    cases hoffset
  exact ⟨(hcomplete [1, 2, 3, 4]).1 hfits, (hcomplete [1, 2, 3, 4, 5]).2 hlonger⟩

end Emulator

end ArmEmulator
