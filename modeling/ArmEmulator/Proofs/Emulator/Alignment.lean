import ArmEmulator.Proofs.Emulator.Accounting
import ArmEmulator.Proofs.Emulator.Generations
import ArmEmulator.Proofs.Guest.Alignment

/-!
# Fetches of a run

A program that starts at the address of a word and does none of the two instructions that
may lead elsewhere fetches from addresses of words only, in both modes: where it is
interpreted, where its blocks run, and where a new region is looked for.

Main results:

- Theorem {lit}`Emulator.Unstrayed.onWords`: what such a program keeps.
- Theorem {lit}`Emulator.Steps.unstrayed`: the steps of a run lead from one emulator of such
  a program to another.
- Theorem {lit}`Emulator.fetches_aligned`: where instructions go on, and the addresses that
  such a program fetches from.
-/

namespace ArmEmulator

open Block (Fetched executeAll)
open Translator (Course Explored Work successorsOf)

/-! ## Blocks -/

/-- The words of a block lie at addresses of words if the first one does. -/
theorem Consecutive.aligned {instrs : List Fetched} {start : Word} (h : Consecutive start instrs)
    (hstart : start.Aligned) {f : Fetched} (hf : f ∈ instrs) : f.addr.Aligned := by
  induction instrs generalizing start with
  | nil => cases hf
  | cons g instrs ih =>
      rcases List.mem_cons.1 hf with rfl | hmem
      · exact h.1.symm ▸ hstart
      · exact ih h.2 (hstart.add rfl) hmem

/-- What an instruction at the address of a word tells are addresses of words. -/
theorem aligned_of_mem_successorsAt {addr word target : Word} (haddr : addr.Aligned)
    (h : target ∈ successorsAt addr (Instruction.decode word)) : target.Aligned := by
  have hnext : (addr + 4).Aligned := haddr.add rfl
  have htaken : ∀ a ∈ takenAt addr (Instruction.decode word).op, a.Aligned := by
    intro a ha
    cases hop : (Instruction.decode word).op with
    | branch b =>
        obtain ⟨link, dest⟩ := b
        rw [hop, takenAt, List.mem_append] at ha
        rcases ha with hgoes | hreturns
        · cases dest with
          | offset bytes =>
              obtain rfl := List.mem_singleton.1 hgoes
              exact (haddr.add (b := 8) rfl).add (Operation.aligned_of_decode_branch hop)
          | reg r => cases hgoes
        · split at hreturns
          · exact List.mem_singleton.1 hreturns ▸ hnext
          · cases hreturns
    | _ =>
        rw [hop] at ha
        cases ha
  cases hw : (Instruction.decode word).writesPc with
  | false =>
      rw [successorsAt, hw] at h
      exact List.mem_singleton.1 h ▸ hnext
  | true =>
      rw [successorsAt_of_writesPc hw] at h
      split at h
      · rcases List.mem_append.1 h with hmem | hmem
        · exact htaken target hmem
        · exact List.mem_singleton.1 hmem ▸ hnext
      · exact htaken target h

namespace Translator

theorem aligned_of_mem_successorsOf {ram : Ram} {n : Nat} {addr target : Word}
    (haddr : addr.Aligned) (h : target ∈ successorsOf ram n addr) : target.Aligned := by
  unfold successorsOf at h
  cases hlast : (fetchBlock ram n addr).getLast? with
  | none =>
      rw [hlast] at h
      cases h
  | some last =>
      rw [hlast] at h
      have hmem : last ∈ fetchBlock ram n addr := List.mem_of_getLast? hlast
      exact aligned_of_mem_successorsAt
        ((consecutive_fetchBlock ram n addr).aligned haddr hmem) h

/-! ## The loop over a region -/

variable [Block.HelperTable]

/-- The loop looks at an address: it is the first of the queue at some turn. -/
inductive Looks (ram : Ram) : Work → Word → Prop where
  | first {addr : Word} {queue : List Word} {count : Nat} {t : Translator} :
      Looks ram ⟨addr :: queue, count, t⟩ addr
  | later {w w' : Work} {addr : Word} (h : w.turn ram = .ok w') (hrest : Looks ram w' addr) :
      Looks ram w addr

/-- The addresses of the queue and the starts of the blocks are addresses of words. -/
structure Work.OnWords (w : Work) : Prop where
  queued : ∀ addr ∈ w.queue, addr.Aligned
  held : ∀ addr, w.translator.contains addr = true → addr.Aligned

section Loop

variable {ram : Ram} {t₀ : Translator} {seeds : List Word} {w : Work}

/-- A turn adds successors of a block at the address of a word. -/
theorem Work.OnWords.turn (h : w.OnWords) (hwritable : w.translator.cache.executable = false)
    {w' : Work} (hturn : w.turn ram = .ok w') : w'.OnWords := by
  have hcase := turn_cases hwritable ram
  rw [hturn] at hcase
  cases hcase with
  | held hqueue =>
      exact ⟨fun a ha => h.queued a (hqueue ▸ List.mem_cons_of_mem _ ha), h.held⟩
  | unmapped hqueue =>
      exact ⟨fun a ha => h.queued a (hqueue ▸ List.mem_cons_of_mem _ ha), h.held⟩
  | @translated addr queue hqueue =>
      have haddr : addr.Aligned := h.queued addr (hqueue ▸ List.mem_cons_self ..)
      refine ⟨fun a ha => ?_, fun a ha => ?_⟩
      · rcases List.mem_append.1 ha with hold | hsucc
        · exact h.queued a (hqueue ▸ List.mem_cons_of_mem _ hold)
        · exact aligned_of_mem_successorsOf haddr hsucc
      · rw [contains_appended, Bool.or_eq_true, decide_eq_true_iff] at ha
        rcases ha with rfl | hold
        · exact haddr
        · exact h.held a hold

variable (hlength : t₀.maxBlockLength ≠ 0)
include hlength

/-- The loop looks at addresses of words only. -/
theorem Looks.aligned {addr : Word} (hlooks : Looks ram w addr)
    (hexplored : Explored ram t₀ seeds w) (h : w.OnWords) : addr.Aligned := by
  induction hlooks with
  | first => exact h.queued _ (List.mem_cons_self ..)
  | later hturn _ ih =>
      exact ih (hexplored.turn hlength hturn).1 (h.turn hexplored.building.writable hturn)

/-- The loop ends with blocks at addresses of words only. -/
theorem Course.onWords {ending : Ending} {last : Work} (hcourse : Course ram w ending last)
    (hexplored : Explored ram t₀ seeds w) (h : w.OnWords) : last.OnWords := by
  induction hcourse with
  | ends => exact h
  | turns hturn _ ih =>
      exact ih (hexplored.turn hlength hturn).1 (h.turn hexplored.building.writable hturn)

end Loop

end Translator

namespace Emulator

variable {ω : Type} {snapshot? : Option Ram} {e e' : Emulator ω}

/-! ## Emulators at words -/

/-- The program counter and the starts of the blocks held are addresses of words. -/
structure OnWords (e : Emulator ω) : Prop where
  pc : e.cpu.pc.Aligned
  held : ∀ addr, e.previous.contains addr = true → addr.Aligned

/-- Another processor at the address of a word may be put in place. -/
theorem OnWords.congr (h : e.OnWords) (hprevious : e'.previous = e.previous)
    (hpc : e'.cpu.pc.Aligned) : e'.OnWords where
  pc := hpc
  held addr hheld := h.held addr (hprevious ▸ hheld)

theorem previous_congr (hconfig : e'.config = e.config)
    (htranslator : e'.translator? = e.translator?) : e'.previous = e.previous := by
  rw [previous, previous, hconfig, htranslator]

/-- The state of the loop over a new region before its first turn. -/
def regionAhead (e : Emulator ω) : Work :=
  ⟨e.cpu.pc :: e.previous.blockStarts, 0, e.previous.reset⟩

theorem OnWords.regionAhead (h : e.OnWords) : e.regionAhead.OnWords where
  queued addr hqueued := by
    rcases List.mem_cons.1 hqueued with rfl | hheld
    · exact h.pc
    · exact h.held addr (Translator.mem_blockStarts_iff.1 hheld)
  held addr hheld := by
    rw [Emulator.regionAhead, Translator.contains_reset] at hheld
    cases hheld

variable [Block.HelperTable]

/-- Without a region there are no blocks. -/
theorem OnWords.of_reached (h : Reached none e) (hpc : e.cpu.pc.Aligned) : e.OnWords where
  pc := hpc
  held addr hheld := by
    obtain ⟨ram, hsnapshot, -⟩ := h.sound.exists_contains_of_previous hheld
    cases hsnapshot

theorem Sound.length_previous_ne_zero (h : e.Sound snapshot?) :
    e.previous.maxBlockLength ≠ 0 := by
  rw [← h.sameLimits_previous.maxBlockLength_eq]
  exact (Configuration.limits_of_validate h.valid).1

/-- A new region starts at addresses of words. -/
theorem OnWords.retranslate (h : e.OnWords) (hsound : e.Sound snapshot?) :
    (e.retranslate e.cpu.pc).2.OnWords := by
  obtain ⟨ending, last, hcourse, hregion⟩ := Translator.exists_course_of_region
    hsound.length_previous_ne_zero e.bus.ram (e.cpu.pc :: e.previous.blockStarts)
  have hlast : last.OnWords := hcourse.onWords hsound.length_previous_ne_zero
    (Translator.explored_reset ..) h.regionAhead
  rw [retranslate_eq, hregion]
  cases ending <;> exact ⟨h.pc, hlast.held⟩

/-- Preparing a step keeps blocks and program counter at words. -/
theorem OnWords.prepared (h : e.OnWords) (hsound : e.Sound snapshot?) : e.prepared.OnWords := by
  unfold Emulator.prepared
  split
  · exact h.retranslate hsound
  · exact h

/-! ## What a step performs -/

/-- A step of a run performs a fetched instruction on a processor: the one it interprets, or
one of the block ahead once those before it are done. -/
inductive Performs (snapshot? : Option Ram) (e : Emulator ω) : Fetched → Cpu → Prop where
  | interpreted (hinterprets : e.config.mode = .interpreted ∨
        e.bus.ram.contains e.cpu.pc 4 = false)
      {word : Word} {bus : Bus ω} (hfetch : Bus.read32 e.cpu.pc e.bus = .ok word bus) :
      Performs snapshot? e ⟨e.cpu.pc, word⟩ e.cpu
  | translated (hmode : e.config.mode = .translated) {before after : List Fetched} {f : Fetched}
      (hahead : e.blockAhead snapshot? = before ++ f :: after) {count : Nat} {cpu : Cpu}
      {bus : Bus ω} (hbefore : executeAll before e.cpu e.bus = .ok (count, cpu) bus) :
      Performs snapshot? e f cpu

/-- No instruction that a step performs is one that may lead off the addresses of words. -/
def Avoids (snapshot? : Option Ram) (e : Emulator ω) : Prop :=
  ∀ f cpu, e.Performs snapshot? f cpu → ¬(Instruction.decode f.word).Strays f.addr cpu

/-- The addresses that a step of a run may fetch from: the program counter; where it looks
for a new region, the words of every block that it looks at and the place behind them; and
the words of the block that it runs. -/
inductive Fetches (snapshot? : Option Ram) (e : Emulator ω) : Word → Prop where
  | pc : Fetches snapshot? e e.cpu.pc
  | region (hmode : e.config.mode = .translated) (hneeds : e.needsRegion = true) {addr : Word}
      (hlooks : Translator.Looks e.bus.ram e.regionAhead addr) {k : Nat}
      (hk : k ≤ (fetchBlock e.bus.ram e.config.maxBlockLength addr).length) :
      Fetches snapshot? e (addr.next k)
  | block (hmode : e.config.mode = .translated) {f : Fetched} (hf : f ∈ e.blockAhead snapshot?) :
      Fetches snapshot? e f.addr

/-- An emulator at words fetches from addresses of words only. -/
theorem OnWords.aligned_of_fetches (h : e.OnWords) (hsound : e.Sound snapshot?) {addr : Word}
    (hfetches : e.Fetches snapshot? addr) : addr.Aligned := by
  cases hfetches with
  | pc => exact h.pc
  | region hmode hneeds hlooks hk =>
      have hlooked := hlooks.aligned hsound.length_previous_ne_zero
        (Translator.explored_reset ..) h.regionAhead
      exact hlooked.next _
  | block hmode hf =>
      unfold blockAhead at hf
      split at hf
      · cases hsnapshot : e.snapshotAfter snapshot? with
        | none =>
            rw [hsnapshot] at hf
            cases hf
        | some ram =>
            rw [hsnapshot] at hf
            exact (consecutive_fetchBlock ram _ _).aligned h.pc hf
      · cases hf

/-! ## Steps -/

omit [Block.HelperTable] in
/-- An instruction that is interpreted without straying goes on at a word. -/
theorem OnWords.step (h : e.OnWords) {outcome : Outcome}
    (havoid : ∀ word bus, Bus.read32 e.cpu.pc e.bus = .ok word bus →
      ¬(Instruction.decode word).Strays e.cpu.pc e.cpu)
    (hok : e.step = (.ok outcome, e')) : e'.OnWords := by
  have hstep := cpu_step_of_step hok
  have hkept := step_config_translator? e
  rw [hok] at hkept
  obtain ⟨word, between, hfetch, hexecute⟩ := Access.bind_eq_ok_iff.1 hstep
  refine h.congr (previous_congr hkept.1 hkept.2) ?_
  exact (Instruction.aligned_pc_iff h.pc hexecute).2 fun hstrays =>
    absurd hstrays (havoid word between hfetch)

omit [Block.HelperTable] in
/-- A block whose instructions do not stray goes on at a word. -/
theorem aligned_of_executeAll {instrs : List Fetched} {start : Word} (hne : instrs ≠ [])
    (hfrom : Consecutive start instrs) (hstart : start.Aligned) {cpu cpu' : Cpu}
    {bus bus' : Bus ω} {count : Nat}
    (havoid : ∀ before last earlier mid between, instrs = before ++ [last] →
      executeAll before cpu bus = .ok (earlier, mid) between →
        ¬(Instruction.decode last.word).Strays last.addr mid)
    (h : executeAll instrs cpu bus = .ok (count, cpu') bus') : cpu'.pc.Aligned := by
  have hsplit := List.dropLast_concat_getLast hne
  generalize instrs.dropLast = before at hsplit
  generalize instrs.getLast hne = last at hsplit
  rw [← hsplit] at h
  obtain ⟨earlier, mid, between, outcome, hbefore, hlast⟩ := Block.exists_last_of_executeAll h
  have haddr : last.addr.Aligned := hfrom.aligned hstart (by simp [← hsplit])
  exact (Instruction.aligned_pc_iff haddr hlast).2 fun hstrays =>
    absurd hstrays (havoid before last earlier mid between hsplit.symm hbefore)

/-- An interpreted step of a run that avoids straying keeps the emulator at words. -/
theorem OnWords.stepInterpreted (h : e.OnWords) (havoid : e.Avoids snapshot?)
    (hinterprets : e.config.mode = .interpreted ∨ e.bus.ram.contains e.cpu.pc 4 = false)
    {halted : Option Word} (hok : e.stepInterpreted = (.ok halted, e')) : e'.OnWords := by
  obtain ⟨outcome, hstep, -⟩ := stepInterpreted_eq_ok_iff.1 hok
  refine h.step (fun word bus hfetch => ?_) hstep
  exact havoid ⟨e.cpu.pc, word⟩ e.cpu (.interpreted hinterprets hfetch)

/-- A step of a run that avoids straying keeps the emulator at words. -/
theorem OnWords.runStep (h : e.OnWords) (hsound : e.Sound snapshot?) (havoid : e.Avoids snapshot?)
    {halted : Option Word} (hok : e.runStep = (.ok halted, e')) : e'.OnWords := by
  cases hmode : e.config.mode with
  | interpreted =>
      rw [runStep_of_interpreted hmode] at hok
      exact h.stepInterpreted havoid (.inl hmode) hok
  | translated =>
      rw [runStep_of_translated hmode] at hok
      cases stepTranslated_cases hsound with
      | outside hpc hneeds heq => exact h.stepInterpreted havoid (.inr hpc) (heq ▸ hok)
      | overflow t hneeds hover hidle hlimits hprepared hsnapshot heq =>
          rw [heq] at hok
          cases hok
      | runs t mode ram hpc hfits hready hlimits hheld hprepared hsnapshot heq =>
          have hmax : t.maxBlockLength = e.config.maxBlockLength := hlimits.maxBlockLength_eq.symm
          have hahead : e.blockAhead snapshot? = fetchBlock ram t.maxBlockLength e.cpu.pc := by
            rw [blockAhead, hpc, if_pos rfl, hsnapshot hmode, hmax]
            rfl
          have hkept := hsound.stepTranslated_config_translator?
          rw [hok] at hkept
          refine (h.prepared hsound).congr (previous_congr hkept.1 hkept.2) ?_
          obtain ⟨block, hblock, hfaithful⟩ := hready.exists_faithful hheld
          rw [heq, hprepared] at hok
          cases hall : executeAll (fetchBlock ram t.maxBlockLength e.cpu.pc) e.cpu e.bus with
          | error fault bus =>
              obtain ⟨_, _, hfails⟩ := stepBlock_of_error hready hblock mode hall
              rw [hfails] at hok
              cases hok
          | ok result bus =>
              rw [stepBlock_of_ok hready hblock mode hall] at hok
              cases hok
              refine aligned_of_executeAll hfaithful.fetched (consecutive_fetchBlock ..) h.pc ?_
                hall
              intro before last earlier mid between hsplit hbefore
              have hlast : e.blockAhead snapshot? = before ++ last :: [] := hahead.trans hsplit
              exact havoid last mid (.translated hmode hlast hbefore)

/-! ## Runs -/

/-- The emulators of a program that starts at the address of a word, as long as no
instruction that is done strays. -/
inductive Unstrayed : Option Ram → Emulator ω → Prop where
  | enter {e : Emulator ω} (h : Reached none e) (hentry : e.cpu.pc.Aligned) : Unstrayed none e
  | signal {snapshot? : Option Ram} {e : Emulator ω} (h : Unstrayed snapshot? e)
      (stopRequested : Bool) : Unstrayed snapshot? { e with stopRequested }
  | step {snapshot? : Option Ram} {e e' : Emulator ω} (h : Unstrayed snapshot? e)
      {outcome : Outcome} (havoid : ∀ word bus, Bus.read32 e.cpu.pc e.bus = .ok word bus →
        ¬(Instruction.decode word).Strays e.cpu.pc e.cpu)
      (hok : e.step = (.ok outcome, e')) : Unstrayed snapshot? e'
  | runStep {snapshot? : Option Ram} {e e' : Emulator ω} (h : Unstrayed snapshot? e)
      (havoid : e.Avoids snapshot?) {halted : Option Word}
      (hok : e.runStep = (.ok halted, e')) : Unstrayed (e.snapshotAfter snapshot?) e'

theorem Unstrayed.reached (h : Unstrayed snapshot? e) : Reached snapshot? e := by
  induction h with
  | enter h => exact h
  | signal _ stopRequested ih => exact ih.signal stopRequested
  | step _ _ hok ih =>
      have hstep := ih.step
      rwa [hok] at hstep
  | runStep _ _ hok ih =>
      have hstep := ih.runStep
      rwa [hok] at hstep

/-- Program counter and blocks stay at words. -/
theorem Unstrayed.onWords (h : Unstrayed snapshot? e) : e.OnWords := by
  induction h with
  | enter h hentry => exact .of_reached h hentry
  | signal _ _ ih => exact ih.congr rfl ih.pc
  | step _ havoid hok ih => exact ih.step havoid hok
  | runStep h havoid hok ih => exact ih.runStep h.reached.sound havoid hok

/-- The steps of a run whose instructions avoid straying lead from one emulator of such a
program to another. -/
theorem Steps.unstrayed {ε : Type} {exit : ExitCondition ε} {start n : Nat} {state last : ε}
    (hsteps : Steps exit start n state e last e') (h : Unstrayed snapshot? e)
    (havoid : ∀ m mid between snapshot?, m < n → Steps exit start m state e mid between →
      Unstrayed snapshot? between → (between.asked exit mid).Avoids snapshot?) :
    ∃ snapshot?, Unstrayed snapshot? e' := by
  induction hsteps generalizing snapshot? with
  | none => exact ⟨_, h⟩
  | @next n state last e after e'' hcheck hstep hrest ih =>
      have hasked : Unstrayed snapshot? (e.asked exit state) := by
        rw [asked_eq]
        exact h.signal _
      have hfirst := havoid 0 state e snapshot? (Nat.succ_pos n) .none h
      exact ih (hasked.runStep hfirst hstep) fun m mid between snapshot? hm hsteps =>
        havoid (m + 1) mid between snapshot? (Nat.succ_lt_succ hm) (.next hcheck hstep hsteps)

/-- What a word decodes to, done at the address of a word without a fault, goes on at the
address of a word, unless it is a branch to a register with its second lowest bit set, or a
transfer that writes its base back to the program counter and does not load it; then it
goes on at the address of a word only if it is such a transfer and its base is one.  So the
emulators of a program that starts at the address of a word and does neither fetch from
addresses of words only, and the steps of a run that does neither pass through such
emulators. -/
theorem fetches_aligned :
    (∀ (addr word : Word) (cpu cpu' : Cpu) (outcome : Outcome) (bus bus' : Bus ω), addr.Aligned →
      (Instruction.decode word).execute addr word cpu bus = .ok (outcome, cpu') bus' →
        (cpu'.pc.Aligned ↔ ((Instruction.decode word).Strays addr cpu →
          ∃ t, (Instruction.decode word).op = .transfer t ∧
            (t.offsetAddress addr cpu).Aligned))) ∧
    (∀ (snapshot? : Option Ram) (e : Emulator ω), Unstrayed snapshot? e →
      e.cpu.pc.Aligned ∧ ∀ addr, e.Fetches snapshot? addr → addr.Aligned) ∧
    ∀ (ε : Type) (exit : ExitCondition ε) (start n : Nat) (state last : ε) (e e' : Emulator ω),
      Reached none e → e.cpu.pc.Aligned → Steps exit start n state e last e' →
      (∀ m mid between snapshot?, m < n → Steps exit start m state e mid between →
        Unstrayed snapshot? between → (between.asked exit mid).Avoids snapshot?) →
      ∃ snapshot?, Unstrayed snapshot? e' := by
  refine ⟨?_, ?_, ?_⟩
  · intro addr word cpu cpu' outcome bus bus' haddr h
    exact Instruction.aligned_pc_iff haddr h
  · intro snapshot? e h
    have honWords : e.OnWords := h.onWords
    exact ⟨honWords.pc, fun addr => honWords.aligned_of_fetches h.reached.sound⟩
  · intro ε exit start n state last e e' hreached hentry hsteps havoid
    exact hsteps.unstrayed (.enter hreached hentry) havoid

end Emulator

/-! ## A move into the program counter -/

namespace Emulator

attribute [local instance] Block.threeTable

/-- A program whose one instruction moves 6 into the program counter. -/
def moveSix : Emulator Unit := loaded [0xe3a0f006]

/-- That instruction does not stray: the program goes on at address 4. -/
theorem fetches_aligned_moveSix :
    moveSix.step.1 = .ok .executed ∧ moveSix.step.2.cpu.pc = 4 ∧
      Unstrayed none moveSix.step.2 ∧ moveSix.step.2.cpu.pc.Aligned ∧
      ∀ addr, moveSix.step.2.Fetches none addr → addr.Aligned := by
  have hstep : moveSix.step = (.ok .executed, moveSix.step.2) := rfl
  have hop : ∃ d, (Instruction.decode 0xe3a0f006).op = .dataProcessing d := ⟨_, rfl⟩
  have hplain : ¬(Instruction.decode 0xe3a0f006).Strays moveSix.cpu.pc moveSix.cpu := by
    obtain ⟨d, hop⟩ := hop
    refine Instruction.not_strays (fun link r hbranch => ?_) (fun t htransfer => ?_)
    · cases hop.symm.trans hbranch
    · cases hop.symm.trans htransfer
  have hunstrayed : Unstrayed none moveSix.step.2 := by
    refine .step (.enter (reached_loaded _) rfl) (fun word bus hfetch => ?_) hstep
    have hread : Bus.read32 moveSix.cpu.pc moveSix.bus = .ok 0xe3a0f006 moveSix.bus := rfl
    cases hread.symm.trans hfetch
    exact hplain
  obtain ⟨-, hprogram, -⟩ := fetches_aligned (ω := Unit)
  exact ⟨rfl, rfl, hunstrayed, hprogram none _ hunstrayed⟩

end Emulator

end ArmEmulator
