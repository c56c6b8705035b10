import ArmEmulator.Proofs.Translator.Successors

/-!
# Regions as reachable blocks

The blocks of a region are found by a loop over a queue of addresses.  Every turn that
does not end the loop takes one address from the queue, and only a turn that translates a
block, of which there are no more than the limit allows, adds some, at most two; so the
loop ends.  If it ends because the queue is empty the blocks are those that successors
lead to from the first addresses.

Main results:

- Theorem {lit}`Translator.translateQueue_succ`: translating a queue is repeating turns.
- Theorem {lit}`Translator.exists_course`: the loop ends, and the number of turns that
  translating a region allows does not cut it short.
- Theorem {lit}`Translator.Explored.turn`: what a turn keeps.
- Theorem {lit}`Translator.Explored.contains_iff`: the blocks once the queue is empty.
-/

namespace ArmEmulator

namespace Translator

variable [Block.HelperTable]

/-! ## Turns of the loop -/

/-- Why the loop ends: its queue is empty, there are as many blocks as there may be, the
cache is full, or translating a block failed. -/
inductive Ending where
  | drained
  | limited
  | exhausted
  | failed (err : TranslateError)
deriving DecidableEq

/-- The state of the loop: the addresses still to look at, the number of blocks
translated, and the translator. -/
structure Work where
  queue : List Word
  count : Nat
  translator : Translator

namespace Work

/-- What the loop gives back when it ends. -/
def outcome (w : Work) : Ending → Except TranslateError Nat × Translator
  | .failed err => (.error err, w.translator)
  | .drained | .limited | .exhausted => (.ok w.count, w.translator)

/-- How the loop goes on with the rest of its queue after it tried to translate a block. -/
def tried (count : Nat) (t : Translator) (queue : List Word) :
    Except TranslateError (TranslatedBlock × Translator) → Except Ending Work
  | .ok (block, t') => .ok ⟨queue ++ block.successors, count + 1, t'⟩
  | .error (.notMapped _) => .ok ⟨queue, count, t⟩
  | .error (.cacheExhausted addr needed used capacity) =>
    if 0 < count then .error .exhausted
    else .error (.failed (.cacheExhausted addr needed used capacity))
  | .error err => .error (.failed err)

/-- One turn of the loop, or how it ends. -/
def turn (ram : Ram) (w : Work) : Except Ending Work :=
  match w.queue with
  | [] => .error .drained
  | addr :: queue =>
    if w.translator.regionBlockLimit ≤ w.translator.blocks.size then .error .limited
    else if w.translator.contains addr then .ok ⟨queue, w.count, w.translator⟩
    else tried w.count w.translator queue (w.translator.translateBlock ram addr)

/-- A bound on the turns that are left: each address of the queue takes one, and each
block that there is still room for may add two addresses. -/
def remaining (w : Work) : Nat :=
  w.queue.length + 2 * (w.translator.regionBlockLimit - w.translator.blocks.size)

end Work

/-- The turns of the loop from a state up to its end. -/
inductive Course (ram : Ram) : Work → Ending → Work → Prop where
  | ends {w : Work} {ending : Ending} (h : w.turn ram = .error ending) : Course ram w ending w
  | turns {w w' last : Work} {ending : Ending} (h : w.turn ram = .ok w')
      (hrest : Course ram w' ending last) : Course ram w ending last

/-- Translating a queue is repeating turns. -/
theorem translateQueue_succ (ram : Ram) (fuel : Nat) (w : Work) :
    translateQueue ram (fuel + 1) w.queue w.count w.translator =
      match w.turn ram with
      | .ok w' => translateQueue ram fuel w'.queue w'.count w'.translator
      | .error ending => w.outcome ending := by
  obtain ⟨queue, count, t⟩ := w
  cases queue with
  | nil => rfl
  | cons addr queue =>
      rw [translateQueue, Work.turn]
      dsimp only
      by_cases hlimit : t.regionBlockLimit ≤ t.blocks.size
      · rw [if_pos hlimit, if_pos hlimit]
        rfl
      rw [if_neg hlimit, if_neg hlimit]
      by_cases hheld : t.contains addr = true
      · rw [if_pos hheld, if_pos hheld]
      rw [if_neg hheld, if_neg hheld]
      cases t.translateBlock ram addr with
      | ok placed => rfl
      | error err =>
          cases err with
          | cacheExhausted addr needed used capacity =>
              rw [Work.tried]
              by_cases hcount : 0 < count
              · simp only [if_pos hcount]
                rfl
              · simp only [if_neg hcount]
                rfl
          | finalized addr => rfl
          | notMapped addr => rfl
          | unboundLabel addr => rfl

/-- All that a turn can give while the cache is writable: the end because the queue is
empty or the limit is reached, the rest of the queue after an address that has a block or
no word, the queue with the successors of a new block, or the end because its code does
not fit. -/
inductive TurnCase (ram : Ram) (w : Work) : Except Ending Work → Prop where
  | drained (hqueue : w.queue = []) : TurnCase ram w (.error .drained)
  | limited (hfull : w.translator.regionBlockLimit ≤ w.translator.blocks.size) :
      TurnCase ram w (.error .limited)
  | held {addr : Word} {queue : List Word} (hqueue : w.queue = addr :: queue)
      (hheld : w.translator.contains addr = true) :
      TurnCase ram w (.ok ⟨queue, w.count, w.translator⟩)
  | unmapped {addr : Word} {queue : List Word} (hqueue : w.queue = addr :: queue)
      (hnil : fetchBlock ram w.translator.maxBlockLength addr = []) :
      TurnCase ram w (.ok ⟨queue, w.count, w.translator⟩)
  | translated {addr : Word} {queue : List Word} (hqueue : w.queue = addr :: queue)
      (hroom : w.translator.blocks.size < w.translator.regionBlockLimit)
      (hnew : w.translator.contains addr = false)
      (hne : fetchBlock ram w.translator.maxBlockLength addr ≠ [])
      (hfits : (blockBytes (fetchBlock ram w.translator.maxBlockLength addr)).length ≤
        w.translator.cache.capacity - w.translator.cache.size) :
      TurnCase ram w
        (.ok ⟨queue ++ (blockOf addr (fetchBlock ram w.translator.maxBlockLength addr)
          w.translator.cache.size).successors, w.count + 1, w.translator.appended ram addr⟩)
  | exhausted (hcount : 0 < w.count) : TurnCase ram w (.error .exhausted)
  | failed (err : TranslateError) : TurnCase ram w (.error (.failed err))

section Turn

variable {addr : Word} {queue : List Word} {count : Nat} {t : Translator}
  (hroom : t.blocks.size < t.regionBlockLimit)
include hroom

/-- An address that has a block is passed over. -/
theorem turn_of_held (hheld : t.contains addr = true) (ram : Ram) :
    Work.turn ram ⟨addr :: queue, count, t⟩ = .ok ⟨queue, count, t⟩ := by
  rw [Work.turn]
  dsimp only
  rw [if_neg (Nat.not_le_of_lt hroom), hheld, if_pos rfl]

/-- At an address without a block the loop tries to translate one. -/
theorem turn_of_new (hnew : t.contains addr = false) (ram : Ram) :
    Work.turn ram ⟨addr :: queue, count, t⟩ =
      Work.tried count t queue (t.translateBlock ram addr) := by
  rw [Work.turn]
  dsimp only
  rw [if_neg (Nat.not_le_of_lt hroom), hnew, if_neg Bool.false_ne_true]

end Turn

/-- What a turn does. -/
theorem turn_cases {w : Work} (hwritable : w.translator.cache.executable = false) (ram : Ram) :
    TurnCase ram w (w.turn ram) := by
  obtain ⟨queue, count, t⟩ := w
  cases queue with
  | nil => exact .drained rfl
  | cons addr queue =>
      by_cases hlimit : t.regionBlockLimit ≤ t.blocks.size
      · rw [Work.turn]
        dsimp only
        rw [if_pos hlimit]
        exact .limited hlimit
      have hroom := Nat.lt_of_not_le hlimit
      cases hheld : t.contains addr with
      | true =>
          rw [turn_of_held hroom hheld]
          exact .held rfl hheld
      | false =>
          rw [turn_of_new hroom hheld]
          have hcase := translateBlock_cases t ram addr
          generalize t.translateBlock ram addr = result at hcase ⊢
          cases hcase with
          | finalized hexecutable => exact nomatch hwritable.symm.trans hexecutable
          | held _ hblock => exact nomatch (blocks_of_not_contains hheld).symm.trans hblock
          | unmapped _ _ hnil => exact .unmapped rfl hnil
          | appended _ _ hne hfits => exact .translated rfl hroom hheld hne hfits
          | exhausted =>
              rw [Work.tried]
              split
              · rename_i hcount
                exact .exhausted hcount
              · exact .failed _

/-- The loop does one thing only. -/
theorem Course.unique {ram : Ram} {w last last' : Work} {ending ending' : Ending}
    (h : Course ram w ending last) (h' : Course ram w ending' last') :
    ending = ending' ∧ last = last' := by
  induction h with
  | ends hend =>
      cases h' with
      | ends hend' => exact ⟨Except.error.inj (hend.symm.trans hend'), rfl⟩
      | turns hturn' => exact nomatch hend.symm.trans hturn'
  | turns hturn _ ih =>
      cases h' with
      | ends hend' => exact nomatch hturn.symm.trans hend'
      | turns hturn' hrest' =>
          obtain rfl := Except.ok.inj (hturn.symm.trans hturn')
          exact ih hrest'

/-! ## Reachable blocks -/

/-- The successors of the block that memory has at an address. -/
def successorsOf (ram : Ram) (n : Nat) (addr : Word) : List Word :=
  (fetchBlock ram n addr).getLast?.elim [] fun last =>
    successorsAt last.addr (Instruction.decode last.word)

/-- The addresses of words in memory that successors lead to from some addresses, through
blocks of at most a number of instructions. -/
inductive Reachable (ram : Ram) (n : Nat) (seeds : List Word) : Word → Prop where
  | seed {addr : Word} (hseed : addr ∈ seeds) (hram : ram.contains addr 4 = true) :
      Reachable ram n seeds addr
  | next {addr succ : Word} (h : Reachable ram n seeds addr)
      (hsucc : succ ∈ successorsOf ram n addr) (hram : ram.contains succ 4 = true) :
      Reachable ram n seeds succ

omit [Block.HelperTable] in
theorem length_successorsOf_le (ram : Ram) (n : Nat) (addr : Word) :
    (successorsOf ram n addr).length ≤ 2 := by
  unfold successorsOf
  cases (fetchBlock ram n addr).getLast? with
  | none => exact Nat.zero_le 2
  | some last => exact length_successorsAt_le _ _

omit [Block.HelperTable] in
/-- There is a word where there is a block. -/
theorem contains_of_fetchBlock_ne_nil {ram : Ram} {n : Nat} {addr : Word}
    (h : fetchBlock ram n addr ≠ []) : ram.contains addr 4 = true := by
  cases n with
  | zero => exact absurd rfl h
  | succ n =>
      refine Decidable.byContradiction fun hout => ?_
      rw [Bool.not_eq_true, ← fetchBlock_eq_nil_iff (Nat.succ_ne_zero n)] at hout
      exact h hout

/-! ## What the loop keeps -/

/-- What is true of the loop over the region of some addresses: the blocks and the
addresses of the queue are reachable; what the seeds and the blocks lead to is a block or
in the queue; and until there is a block, the first of the seeds in memory is the first
of the queue. -/
structure Explored (ram : Ram) (t₀ : Translator) (seeds : List Word) (w : Work) : Prop where
  building : w.translator.Building ram
  limits : t₀.SameLimits w.translator
  counted : w.count = w.translator.blocks.size
  queued : ∀ addr ∈ w.queue, ram.contains addr 4 = true →
    Reachable ram t₀.maxBlockLength seeds addr
  held : ∀ addr, w.translator.contains addr = true → Reachable ram t₀.maxBlockLength seeds addr
  seeded : ∀ addr ∈ seeds, ram.contains addr 4 = true →
    w.translator.contains addr = true ∨ addr ∈ w.queue
  followed : ∀ addr, w.translator.contains addr = true →
    ∀ succ ∈ successorsOf ram t₀.maxBlockLength addr, ram.contains succ 4 = true →
      w.translator.contains succ = true ∨ succ ∈ w.queue
  first : ∀ addr, seeds.find? (ram.contains · 4) = some addr →
    w.translator.contains addr = true ∨
      w.translator.blocks.size = 0 ∧ w.queue.find? (ram.contains · 4) = some addr

section Explored

variable {ram : Ram} {t₀ : Translator} {seeds : List Word} {w : Work} {addr : Word}
  {queue : List Word}

/-- At first the queue has the seeds and there is no block. -/
theorem explored_reset (t : Translator) (ram : Ram) (seeds : List Word) :
    Explored ram t seeds ⟨seeds, 0, t.reset⟩ where
  building := building_reset t ram
  limits := sameLimits_reset t
  counted := Std.TreeMap.size_emptyc.symm
  queued _ hseed hram := .seed hseed hram
  held addr hheld := nomatch (contains_reset t addr).symm.trans hheld
  seeded _ hseed _ := .inr hseed
  followed addr hheld := nomatch (contains_reset t addr).symm.trans hheld
  first _ hfirst := .inr ⟨Std.TreeMap.size_emptyc, hfirst⟩

/-- An address that has a block or no word may be passed over. -/
theorem Explored.skip (h : Explored ram t₀ seeds w) (hqueue : w.queue = addr :: queue)
    (hdone : ram.contains addr 4 = true → w.translator.contains addr = true) :
    Explored ram t₀ seeds ⟨queue, w.count, w.translator⟩ := by
  have hrest : ∀ a, ram.contains a 4 = true → w.translator.contains a = true ∨ a ∈ w.queue →
      w.translator.contains a = true ∨ a ∈ queue := by
    intro a hram hor
    rw [hqueue, List.mem_cons] at hor
    rcases hor with hheld | rfl | hmem
    · exact .inl hheld
    · exact .inl (hdone hram)
    · exact .inr hmem
  refine ⟨h.building, h.limits, h.counted, ?_, h.held, ?_, ?_, ?_⟩
  · intro a hmem
    exact h.queued a (hqueue ▸ List.mem_cons_of_mem addr hmem)
  · intro a hseed hram
    exact hrest a hram (h.seeded a hseed hram)
  · intro a hheld succ hsucc hram
    exact hrest succ hram (h.followed a hheld succ hsucc hram)
  · intro a hfirst
    rcases h.first a hfirst with hheld | ⟨hempty, hfind⟩
    · exact .inl hheld
    · refine .inr ⟨hempty, ?_⟩
      rw [hqueue] at hfind
      rwa [List.find?_cons_of_neg] at hfind
      -- While there is no block, what is passed over is no word of memory.
      intro hram
      exact Nat.ne_of_gt (size_pos_of_contains (hdone hram)) hempty

/-- A new block takes the place of its address in the queue, and its successors are
added. -/
theorem Explored.append (h : Explored ram t₀ seeds w) (hqueue : w.queue = addr :: queue)
    (hroom : w.translator.blocks.size < w.translator.regionBlockLimit)
    (hnew : w.translator.contains addr = false)
    (hne : fetchBlock ram w.translator.maxBlockLength addr ≠ [])
    (hfits : (blockBytes (fetchBlock ram w.translator.maxBlockLength addr)).length ≤
      w.translator.cache.capacity - w.translator.cache.size) :
    Explored ram t₀ seeds
      ⟨queue ++ successorsOf ram t₀.maxBlockLength addr, w.count + 1,
        w.translator.appended ram addr⟩ := by
  have hram := contains_of_fetchBlock_ne_nil hne
  have hreach : Reachable ram t₀.maxBlockLength seeds addr :=
    h.queued addr (hqueue ▸ List.mem_cons_self) hram
  have hcontains : ∀ a, (w.translator.appended ram addr).contains a = true ↔
      addr = a ∨ w.translator.contains a = true := by
    intro a
    rw [contains_appended, Bool.or_eq_true, decide_eq_true_iff]
  have hrest : ∀ a, w.translator.contains a = true ∨ a ∈ w.queue →
      (w.translator.appended ram addr).contains a = true ∨
        a ∈ queue ++ successorsOf ram t₀.maxBlockLength addr := by
    intro a hor
    rw [hqueue, List.mem_cons] at hor
    rcases hor with hheld | rfl | hmem
    · exact .inl ((hcontains a).2 (.inr hheld))
    · exact .inl ((hcontains a).2 (.inl rfl))
    · exact .inr (List.mem_append_left _ hmem)
  refine ⟨h.building.appended hroom hne hfits, h.limits.trans (sameLimits_appended _ ram addr),
    ?_, ?_, ?_, ?_, ?_, ?_⟩
  · show w.count + 1 = (w.translator.blocks.insert addr _).size
    rw [Std.TreeMap.size_insert, if_neg, h.counted]
    show ¬ w.translator.contains addr = true
    rw [hnew]
    exact Bool.false_ne_true
  · intro a hmem
    rcases List.mem_append.1 hmem with hold | hsucc
    · exact h.queued a (hqueue ▸ List.mem_cons_of_mem addr hold)
    · exact .next hreach hsucc
  · intro a hheld
    rcases (hcontains a).1 hheld with rfl | hold
    · exact hreach
    · exact h.held a hold
  · intro a hseed hram
    exact hrest a (h.seeded a hseed hram)
  · intro a hheld succ hsucc hram
    rcases (hcontains a).1 hheld with rfl | hold
    · exact .inr (List.mem_append_right _ hsucc)
    · exact hrest succ (h.followed a hold succ hsucc hram)
  · intro a hfirst
    left
    rw [hcontains]
    rcases h.first a hfirst with hheld | ⟨-, hfind⟩
    · exact .inr hheld
    · have hhead : (addr :: queue).find? (ram.contains · 4) = some addr :=
        List.find?_cons_of_pos hram
      rw [hqueue, hhead] at hfind
      exact .inl (Option.some.inj hfind)

/-- What a turn keeps, and that it leaves fewer turns. -/
theorem Explored.turn (hlength : t₀.maxBlockLength ≠ 0) (h : Explored ram t₀ seeds w) {w' : Work}
    (hturn : w.turn ram = .ok w') :
    Explored ram t₀ seeds w' ∧ w'.remaining < w.remaining := by
  have hmax := h.limits.maxBlockLength_eq
  have hcase := turn_cases h.building.writable ram
  rw [hturn] at hcase
  cases hcase with
  | @held addr queue hqueue hheld =>
      refine ⟨h.skip hqueue fun _ => hheld, ?_⟩
      rw [Work.remaining, Work.remaining, hqueue]
      exact Nat.add_lt_add_right (Nat.lt_succ_self _) _
  | @unmapped addr queue hqueue hnil =>
      refine ⟨h.skip hqueue fun hram => ?_, ?_⟩
      · rw [← hmax, fetchBlock_eq_nil_iff hlength, hram] at hnil
        cases hnil
      · rw [Work.remaining, Work.remaining, hqueue]
        exact Nat.add_lt_add_right (Nat.lt_succ_self _) _
  | @translated addr queue hqueue hroom hnew hne hfits =>
      have hexplored := h.append hqueue hroom hnew hne hfits
      have hsuccessors : (blockOf addr (fetchBlock ram w.translator.maxBlockLength addr)
          w.translator.cache.size).successors = successorsOf ram t₀.maxBlockLength addr := by
        rw [hmax]
        rfl
      rw [hsuccessors]
      refine ⟨hexplored, ?_⟩
      have hsize : (w.translator.appended ram addr).blocks.size = w.translator.blocks.size + 1 := by
        rw [← h.counted]
        exact hexplored.counted.symm
      have hlimit : (w.translator.appended ram addr).regionBlockLimit =
          w.translator.regionBlockLimit := rfl
      -- One address leaves the queue and at most two join it, but the room for one block is
      -- gone, which counted for two.
      have htwo := length_successorsOf_le ram t₀.maxBlockLength addr
      rw [Work.remaining, Work.remaining, hqueue, List.length_append, List.length_cons]
      dsimp only
      omega

/-- What is true of the loop is true where it ends. -/
theorem Course.explored (hlength : t₀.maxBlockLength ≠ 0) {last : Work} {ending : Ending}
    (hcourse : Course ram w ending last) (h : Explored ram t₀ seeds w) :
    Explored ram t₀ seeds last ∧ last.turn ram = .error ending := by
  induction hcourse with
  | ends hend => exact ⟨h, hend⟩
  | turns hturn _ ih => exact ih (h.turn hlength hturn).1

/-- The loop ends, within as many turns as its queue and the limit allow. -/
theorem exists_course (hlength : t₀.maxBlockLength ≠ 0) (fuel : Nat)
    (h : Explored ram t₀ seeds w) (hfuel : w.remaining ≤ fuel) :
    ∃ ending last, Course ram w ending last ∧
      translateQueue ram fuel w.queue w.count w.translator = last.outcome ending := by
  -- The bound decreases with every turn, so the fuel only runs out on an empty queue.
  induction fuel generalizing w with
  | zero =>
      have hqueue : w.queue = [] := by
        rw [Work.remaining] at hfuel
        exact List.eq_nil_of_length_eq_zero (by omega)
      refine ⟨.drained, w, .ends ?_, ?_⟩
      · rw [Work.turn, hqueue]
      · rw [hqueue]
        rfl
  | succ fuel ih =>
      rw [translateQueue_succ]
      cases hturn : w.turn ram with
      | error ending => exact ⟨ending, w, .ends hturn, rfl⟩
      | ok w' =>
          obtain ⟨hexplored, hless⟩ := h.turn hlength hturn
          obtain ⟨ending, last, hcourse, hqueue⟩ := ih hexplored (by omega)
          exact ⟨ending, last, .turns hturn hcourse, hqueue⟩

/-! ## Where the loop ends -/

/-- The queue is empty where the loop ends for that reason. -/
theorem queue_of_drained (hwritable : w.translator.cache.executable = false)
    (hend : w.turn ram = .error .drained) : w.queue = [] := by
  have hcase := turn_cases hwritable ram
  rw [hend] at hcase
  cases hcase with
  | drained hqueue => exact hqueue

/-- Once the queue is empty the blocks are the reachable ones. -/
theorem Explored.contains_iff (h : Explored ram t₀ seeds w)
    (hend : w.turn ram = .error .drained) (addr : Word) :
    w.translator.contains addr = true ↔ Reachable ram t₀.maxBlockLength seeds addr := by
  have hqueue := queue_of_drained h.building.writable hend
  have hheld : ∀ a, w.translator.contains a = true ∨ a ∈ w.queue →
      w.translator.contains a = true := by
    intro a hor
    rw [hqueue] at hor
    exact hor.resolve_right List.not_mem_nil
  refine ⟨h.held addr, fun hreach => ?_⟩
  induction hreach with
  | seed hseed hram => exact hheld _ (h.seeded _ hseed hram)
  | next _ hsucc hram ih => exact hheld _ (h.followed _ ih _ hsucc hram)

/-- The first of the seeds in memory has a block, unless translating it failed. -/
theorem Explored.contains_first (h : Explored ram t₀ seeds w) (hlimit : t₀.regionBlockLimit ≠ 0)
    {ending : Ending} (hend : w.turn ram = .error ending)
    (hfirst : seeds.find? (ram.contains · 4) = some addr) :
    w.translator.contains addr = true ∨ ∃ err, ending = .failed err := by
  rcases h.first addr hfirst with hheld | ⟨hempty, hfind⟩
  · exact .inl hheld
  right
  have hcase := turn_cases h.building.writable ram
  rw [hend] at hcase
  cases hcase with
  | drained hqueue =>
      rw [hqueue] at hfind
      cases hfind
  | limited hfull =>
      rw [hempty, ← h.limits.regionBlockLimit_eq] at hfull
      exact absurd (Nat.le_zero.1 hfull) hlimit
  | exhausted hcount =>
      rw [h.counted, hempty] at hcount
      cases hcount
  | failed err => exact ⟨err, rfl⟩

/-- Translating a region from a reset translator is a course of the loop up to its end. -/
theorem exists_course_of_region {t : Translator} (hlength : t.maxBlockLength ≠ 0) (ram : Ram)
    (seeds : List Word) :
    ∃ ending last, Course ram ⟨seeds, 0, t.reset⟩ ending last ∧
      t.reset.translateRegion ram seeds = last.outcome ending := by
  refine exists_course hlength _ (explored_reset t ram seeds) ?_
  rw [Work.remaining, show t.reset.blocks.size = 0 from Std.TreeMap.size_emptyc]
  exact Nat.le_refl _

end Explored

end Translator

end ArmEmulator
