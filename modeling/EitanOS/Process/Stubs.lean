import EitanOS.Lib.X86
import EitanOS.Process.Scheduler

/-!
# The interrupt stubs (`main_asm.S`)

The code between the processor and the handlers in C: it saves the registers in a `cpu_state_t`, calls the handler, and
resumes with what the `cpu_state_t` holds then.

* `isrNoErrcode`, `isrErrcode`, `irqStub`, `syscallHandlerAsm`: the stubs, instruction by instruction.
* **`interrupt_spec`**: what every stub passes to its handler, and how the processor resumes.
-/

namespace EitanOS

open X86

/-- The words of a `cpu_state_t`. -/
def CpuState.words (f : CpuState) : List UInt64 :=
  [f.gs, f.fs, f.r15, f.r14, f.r13, f.r12, f.r11, f.r10, f.r9, f.r8, f.rbp, f.rdi, f.rsi, f.rdx, f.rcx, f.rbx, f.rax,
    f.errorCode, f.rip, f.cs, f.rflags, f.rsp, f.ss]

/-- The general registers of a frame. -/
def CpuState.reg (f : CpuState) : Reg → UInt64
  | .rax => f.rax
  | .rbx => f.rbx
  | .rcx => f.rcx
  | .rdx => f.rdx
  | .rsi => f.rsi
  | .rdi => f.rdi
  | .rbp => f.rbp
  | .rsp => f.rsp
  | .r8 => f.r8
  | .r9 => f.r9
  | .r10 => f.r10
  | .r11 => f.r11
  | .r12 => f.r12
  | .r13 => f.r13
  | .r14 => f.r14
  | .r15 => f.r15

end EitanOS

namespace Stubs

open X86 EitanOS

/-- The functions in C that the stubs call. -/
inductive Handler
  | exceptionHandlerC
  | irqHandlerC
  | syscallHandlerC

/-- The labels of `main_asm.S` that vectors lead to. -/
inductive Stub
  | isr (n : Fin 32)
  | irq (n : Fin 16)
  | syscallHandlerAsm

/-- Code of the stubs. -/
abbrev Asm := List (Instr Handler)

/-! ## The code -/

/-- The registers in `PUSH_ALL`. -/
def pushedSlots : List Slot :=
  [.reg .rax, .reg .rbx, .reg .rcx, .reg .rdx, .reg .rsi, .reg .rdi, .reg .rbp, .reg .r8, .reg .r9, .reg .r10,
    .reg .r11, .reg .r12, .reg .r13, .reg .r14, .reg .r15, .seg .fs, .seg .gs]

/-- `PUSH_ALL`. -/
def pushAll : Asm := pushedSlots.map .push

/-- The registers in `POP_ALL`. -/
def poppedSlots : List Slot :=
  [.seg .gs, .seg .fs, .reg .r15, .reg .r14, .reg .r13, .reg .r12, .reg .r11, .reg .r10, .reg .r9, .reg .r8,
    .reg .rbp, .reg .rdi, .reg .rsi, .reg .rdx, .reg .rcx, .reg .rbx, .reg .rax]

/-- `POP_ALL`. -/
def popAll : Asm := poppedSlots.map .pop

/-- `LOAD_KERNEL_SEGS`. -/
def loadKernelSegs : Asm := [.movAx 0x10, .movSeg .ds, .movSeg .es]

/-- `FRAME_CS`. -/
def frameCs : UInt64 := 152

/-- `swapgs`, when the frame is one of user code. -/
def swapUserGs : Asm := [.testByte frameCs 3, .jz 1, .swapgs]

/-- The end of every stub. -/
def resume : Asm := popAll ++ [.addRsp 8, .iretq]

/-- `ISR_ERRCODE`. -/
def isrErrcode (n : UInt64) : Asm :=
  pushAll ++ loadKernelSegs ++ [.movImm .rdi n, .mov .rsi .rsp, .call .exceptionHandlerC] ++ resume

/-- `ISR_NOERRCODE`. -/
def isrNoErrcode (n : UInt64) : Asm :=
  [.pushImm 0] ++ pushAll ++ loadKernelSegs ++ [.movImm .rdi n, .mov .rsi .rsp, .call .exceptionHandlerC] ++ resume

/-- `IRQ_STUB`. -/
def irqStub (n : UInt64) : Asm :=
  [.pushImm 0] ++ pushAll ++ loadKernelSegs ++ swapUserGs ++
    [.movImm .rdi (32 + n), .mov .rsi .rsp, .call .irqHandlerC] ++ swapUserGs ++ resume

/-- `syscall_handler_asm`. -/
def syscallHandlerAsm : Asm :=
  [.pushImm 0] ++ pushAll ++ loadKernelSegs ++ swapUserGs ++
    [.load .rdi 128, .load .rsi 120, .load .rdx 112, .load .rcx 104, .mov .r8 .rsp, .call .syscallHandlerC] ++
    swapUserGs ++ resume

/-- The exceptions for which `main_asm.S` uses `ISR_ERRCODE`. -/
def errcodeStubs : List ℕ := [8, 10, 11, 12, 13, 14, 17, 21, 29, 30]

/-- The code at a label. -/
def Stub.code : Stub → Asm
  | .isr n => if n.val ∈ errcodeStubs then isrErrcode (UInt64.ofNat n) else isrNoErrcode (UInt64.ofNat n)
  | .irq n => irqStub (UInt64.ofNat n)
  | .syscallHandlerAsm => Stubs.syscallHandlerAsm

/-! ## The frame -/

variable {σ : Type*}

/-- The frame of a processor that is interrupted. -/
def entryFrame (errorCode : UInt64) (c : Cpu σ) : CpuState :=
  ⟨(c.seg .gs).toUInt64, (c.seg .fs).toUInt64, c.reg .r15, c.reg .r14, c.reg .r13, c.reg .r12, c.reg .r11, c.reg .r10,
    c.reg .r9, c.reg .r8, c.reg .rbp, c.reg .rdi, c.reg .rsi, c.reg .rdx, c.reg .rcx, c.reg .rbx, c.reg .rax, errorCode,
    c.rip, (c.seg .cs).toUInt64, c.rflags, c.rsp, (c.seg .ss).toUInt64⟩

/-- What has been pushed when the frame is complete: `e` is the error code. -/
structure Entered (gate : Gate) (rsp0 e : UInt64) (c c' : Cpu σ) : Prop where
  rsp : c'.rsp.toNat = (frameTop rsp0 c).toNat - 184
  frame : Stacked c'.mem c'.rsp.toNat (entryFrame e c).words
  mem : ∀ k, k < (frameTop rsp0 c).toNat - 184 ∨ (frameTop rsp0 c).toNat ≤ k → c'.mem k = c.mem k
  cs : c'.seg .cs = gate.selector
  ds : c'.seg .ds = 0x10
  es : c'.seg .es = 0x10
  rest : c'.rest = c.rest

variable {env : Env Handler σ} {c c' : Cpu σ} {is : Asm} {gate : Gate} {rsp0 e v : UInt64} {f : CpuState}

/-! ## Saving the registers -/

theorem toUInt16_movAx (v : UInt64) : (v &&& 0xFFFFFFFFFFFF0000 ||| (0x10 : UInt16).toUInt64).toUInt16 = 0x10 := by
  rw [UInt64.toUInt16_or, UInt64.toUInt16_and]
  have h₁ : (0xFFFFFFFFFFFF0000 : UInt64).toUInt16 = 0 := rfl
  have h₂ : (0x10 : UInt16).toUInt64.toUInt16 = 0x10 := rfl
  rw [h₁, h₂, UInt16.and_zero, UInt16.zero_or]

/-- The state after `LOAD_KERNEL_SEGS`. -/
def kernelSegs (env : Env Handler σ) (c : Cpu σ) : Cpu σ :=
  ((c.setReg .rax (c.reg .rax &&& 0xFFFFFFFFFFFF0000 ||| (0x10 : UInt16).toUInt64)).setSeg env .ds 0x10).setSeg
    env .es 0x10

theorem rsp_kernelSegs : (kernelSegs env c).rsp = c.rsp := rfl

theorem mem_kernelSegs : (kernelSegs env c).mem = c.mem := rfl

theorem run_loadKernelSegs (hl : env.loadable 0x10 = true) :
    run env (loadKernelSegs ++ is) 0 c = run env is 0 (kernelSegs env c) := by
  -- every state here has the `rax` of the first instruction
  have hmov (c₁ : Cpu σ) (s : Seg)
      (hrax : c₁.reg .rax = (c.reg .rax &&& 0xFFFFFFFFFFFF0000 ||| (0x10 : UInt16).toUInt64)) :
      step env (.movSeg s) c₁ = some (c₁.setSeg env s 0x10) := by
    rw [step, hrax, toUInt16_movAx, if_pos hl]
  have hrax := c.reg_setReg .rax (c.reg .rax &&& 0xFFFFFFFFFFFF0000 ||| (0x10 : UInt16).toUInt64)
  exact (run_cons rfl).trans ((run_cons (hmov _ .ds hrax)).trans (run_cons (hmov _ .es hrax)))

/-- The state in which the frame is complete. -/
def savedState (env : Env Handler σ) (gate : Gate) (rsp0 e : UInt64) (c : Cpu σ) : Cpu σ :=
  kernelSegs env ((deliver gate rsp0 (some e) c).pushVals (pushedSlots.map (deliver gate rsp0 (some e) c).get))

theorem room_deliver (h : 184 ≤ (frameTop rsp0 c).toNat) : (deliver gate rsp0 (some e) c).Room pushedSlots.length := by
  have hrsp : (deliver gate rsp0 (some e) c).rsp.toNat = (frameTop rsp0 c).toNat - 48 :=
    rsp_deliver (some e) (by omega)
  have htop : (frameTop rsp0 c).toNat % 16 = 0 := frameTop_mod
  have hlen : pushedSlots.length = 17 := rfl
  exact ⟨by omega, by omega⟩

theorem run_save (h : 184 ≤ (frameTop rsp0 c).toNat) (hl : env.loadable 0x10 = true) :
    run env (pushAll ++ (loadKernelSegs ++ is)) 0 (deliver gate rsp0 (some e) c) =
      run env is 0 (savedState env gate rsp0 e c) := by
  rw [pushAll, run_pushes (room_deliver h) (by decide), run_loadKernelSegs hl, savedState]

theorem get_deliver {x : Slot} (hx : x ∈ pushedSlots) : (deliver gate rsp0 (some e) c).get x = c.get x := by
  cases x with
  | reg r => exact reg_deliver fun hr => absurd (hr ▸ hx) (by decide)
  | seg s =>
    -- of the segment registers only `cs` and `ss` change, and they are not pushed here
    cases s with
    | cs => exact absurd hx (by decide)
    | ss => exact absurd hx (by decide)
    | _ => rfl

theorem words_entryFrame : (pushedSlots.map c.get).reverse ++
    [e, c.rip, (c.seg .cs).toUInt64, c.rflags, c.rsp, (c.seg .ss).toUInt64] = (entryFrame e c).words := rfl

/-- **The frame is complete.** -/
theorem entered_savedState (h : 184 ≤ (frameTop rsp0 c).toNat) :
    Entered gate rsp0 e c (savedState env gate rsp0 e c) := by
  have hroom : (deliver gate rsp0 (some e) c).Room (pushedSlots.map c.get).length := by
    rw [List.length_map]
    exact room_deliver h
  have hlen : (pushedSlots.map c.get).length = 17 := rfl
  have hrsp : (deliver gate rsp0 (some e) c).rsp.toNat = (frameTop rsp0 c).toNat - 48 :=
    rsp_deliver (some e) (by omega)
  have heq := (deliver gate rsp0 (some e) c).pushVals_eq (pushedSlots.map c.get)
  rw [savedState, List.map_congr_left fun x hx => get_deliver hx]
  refine ⟨?_, ?_, fun k hk => ?_, ?_, ?_, ?_, ?_⟩
  · rw [rsp_kernelSegs, Cpu.rsp_pushVals hroom]
    omega
  · rw [mem_kernelSegs, rsp_kernelSegs, ← words_entryFrame]
    exact Cpu.stacked_pushVals hroom (stacked_deliver (by omega))
  · rw [mem_kernelSegs, Cpu.mem_pushVals hroom (by omega), mem_deliver (by omega) (by omega)]
  all_goals
    rw [heq]
    rfl

/-! ## Arguments -/

/-- The frame `f` is on the stack. -/
structure Framed (f : CpuState) (c : Cpu σ) : Prop where
  frame : Stacked c.mem c.rsp.toNat f.words
  aligned : c.rsp.toNat % 8 = 0
  lt : c.rsp.toNat + 184 < 2 ^ 64

theorem Framed.word (h : Framed f c) {i : ℕ} (hi : i < 23) :
    (c.rsp + UInt64.ofNat (8 * i)).toNat = c.rsp.toNat + 8 * i ∧ c.mem (c.rsp.toNat + 8 * i) = f.words[i] := by
  have hlt := h.lt
  refine ⟨?_, h.frame.getElem hi⟩
  rw [UInt64.toNat_add, UInt64.toNat_ofNat']
  omega

/-- The state after a conditional `swapgs`. -/
def swapped (env : Env Handler σ) (f : CpuState) (c : Cpu σ) : Cpu σ :=
  let c' := { c with rflags := env.flags c.rflags (f.cs.toUInt8 &&& 3).toUInt64 }
  if f.cs.toUInt8 &&& 3 = 0 then c' else { c' with gsBase := c.kernelGsBase, kernelGsBase := c.gsBase }

theorem run_swapUserGs (h : Framed f c) : run env (swapUserGs ++ is) 0 c = run env is 0 (swapped env f c) := by
  obtain ⟨haddr, hword⟩ := h.word (show 19 < 23 by decide)
  have haddr : (c.rsp + frameCs).toNat = c.rsp.toNat + 152 := haddr
  have hbyte : c.loadByte (c.rsp + frameCs) = f.cs.toUInt8 := by
    have := h.aligned
    rw [loadByte_aligned (by omega), haddr]
    exact congrArg UInt64.toUInt8 hword
  have htest : step env (.testByte frameCs 3) c =
      some { c with rflags := env.flags c.rflags (f.cs.toUInt8 &&& 3).toUInt64 } := by
    rw [step, hbyte]
  have hzero : (f.cs.toUInt8 &&& 3).toUInt64 = 0 ↔ f.cs.toUInt8 &&& 3 = 0 :=
    ⟨fun e => UInt8.toUInt64_inj.1 e, fun e => congrArg UInt8.toUInt64 e⟩
  rw [swapUserGs, List.cons_append, run_cons htest, List.cons_append, run, env.zeroFlag_flags, swapped]
  by_cases huser : f.cs.toUInt8 &&& 3 = 0
  · rw [decide_eq_true (hzero.2 huser), if_pos rfl, if_pos huser]
    exact run_skip
  · rw [decide_eq_false fun e => huser (hzero.1 e), if_neg (by decide), if_neg huser]
    exact run_cons rfl

namespace Stub

/-- The function that a stub calls. -/
def handler : Stub → Handler
  | .isr _ => .exceptionHandlerC
  | .irq _ => .irqHandlerC
  | .syscallHandlerAsm => .syscallHandlerC

/-- What a stub executes after the call. -/
def exitCode : Stub → Asm
  | .isr _ => resume
  | .irq _ => swapUserGs ++ resume
  | .syscallHandlerAsm => swapUserGs ++ resume

/-- The arguments of the call, when the frame is `f`. -/
def Arguments (f : CpuState) (c : Cpu σ) : Stub → Prop
  | .isr n => c.reg .rdi = UInt64.ofNat n ∧ c.reg .rsi = c.rsp
  | .irq n => c.reg .rdi = 32 + UInt64.ofNat n ∧ c.reg .rsi = c.rsp
  | .syscallHandlerAsm =>
    c.reg .rdi = f.rax ∧ c.reg .rsi = f.rbx ∧ c.reg .rdx = f.rcx ∧ c.reg .rcx = f.rdx ∧ c.reg .r8 = c.rsp

/-- The stubs that the processor must push an error code for. -/
def takesErrorCode : Stub → Bool
  | .isr n => n.val ∈ errcodeStubs
  | _ => false

end Stub

/-- `c'` is `c` up to registers other than `rsp`. -/
structure SameStack (c c' : Cpu σ) : Prop where
  rsp : c'.rsp = c.rsp
  mem : c'.mem = c.mem
  seg : c'.seg = c.seg
  rest : c'.rest = c.rest

theorem SameStack.trans {c'' : Cpu σ} (h : SameStack c c') (h' : SameStack c' c'') : SameStack c c'' :=
  ⟨h'.rsp.trans h.rsp, h'.mem.trans h.mem, h'.seg.trans h.seg, h'.rest.trans h.rest⟩

theorem SameStack.setReg {r : Reg} (hr : r ≠ .rsp) : SameStack c (c.setReg r v) :=
  ⟨Cpu.reg_setReg_of_ne hr.symm, rfl, rfl, rfl⟩

theorem sameStack_swapped : SameStack c (swapped env f c) := by
  rw [swapped]
  split_ifs
  · exact ⟨rfl, rfl, rfl, rfl⟩
  · exact ⟨rfl, rfl, rfl, rfl⟩

theorem Framed.congr (h : Framed f c) (hs : SameStack c c') : Framed f c' := by
  refine ⟨?_, ?_, ?_⟩
  · rw [hs.mem, hs.rsp]
    exact h.frame
  · rw [hs.rsp]
    exact h.aligned
  · rw [hs.rsp]
    exact h.lt

theorem Entered.congr {c'' : Cpu σ} (h : Entered gate rsp0 e c c') (hs : SameStack c' c'') :
    Entered gate rsp0 e c c'' := by
  refine ⟨?_, ?_, ?_, ?_, ?_, ?_, ?_⟩
  · rw [hs.rsp, h.rsp]
  · rw [hs.mem, hs.rsp]
    exact h.frame
  · rw [hs.mem]
    exact h.mem
  · rw [hs.seg, h.cs]
  · rw [hs.seg, h.ds]
  · rw [hs.seg, h.es]
  · rw [hs.rest, h.rest]

theorem Entered.framed (h : Entered gate rsp0 e c c') (ht : 184 ≤ (frameTop rsp0 c).toNat) :
    Framed (entryFrame e c) c' := by
  have hrsp := h.rsp
  have htop : (frameTop rsp0 c).toNat % 16 = 0 := frameTop_mod
  have hlt := (frameTop rsp0 c).toNat_lt
  exact ⟨h.frame, by omega, by omega⟩

theorem run_load (h : Framed f c) {r : Reg} {i : ℕ} (hi : i < 23) :
    run env (.load r (UInt64.ofNat (8 * i)) :: is) 0 c = run env is 0 (c.setReg r f.words[i]) := by
  obtain ⟨haddr, hword⟩ := h.word hi
  have := h.aligned
  refine run_cons ?_
  rw [step, Cpu.loadWord, if_pos (by omega), haddr, hword, Option.map_some]

theorem run_syscall_arguments (h : Framed f c) :
    ∃ c', run env ([.load .rdi 128, .load .rsi 120, .load .rdx 112, .load .rcx 104, .mov .r8 .rsp,
        .call .syscallHandlerC] ++ is) 0 c = (env.call .syscallHandlerC c').bind (run env is 0) ∧
      SameStack c c' ∧ Stub.Arguments f c' .syscallHandlerAsm := by
  have h₁ : SameStack c (c.setReg .rdi f.rax) := .setReg (by decide)
  have h₂ : SameStack c ((c.setReg .rdi f.rax).setReg .rsi f.rbx) := h₁.trans (.setReg (by decide))
  have h₃ : SameStack c (((c.setReg .rdi f.rax).setReg .rsi f.rbx).setReg .rdx f.rcx) := h₂.trans (.setReg (by decide))
  have h₄ := h₃.trans (SameStack.setReg (v := f.rdx) (show Reg.rcx ≠ .rsp by decide))
  have h₅ := h₄.trans (SameStack.setReg (v := c.rsp) (show Reg.r8 ≠ .rsp by decide))
  refine ⟨_, ?_, h₅, rfl, rfl, rfl, rfl, rfl⟩
  exact (run_load h (i := 16) (by decide)).trans ((run_load (h.congr h₁) (i := 15) (by decide)).trans
    ((run_load (h.congr h₂) (i := 14) (by decide)).trans ((run_load (h.congr h₃) (i := 13) (by decide)).trans
      (run_cons rfl))))

theorem run_vector_arguments {handler : Handler} (c : Cpu σ) (n : UInt64) :
    ∃ c', run env ([.movImm .rdi n, .mov .rsi .rsp, .call handler] ++ is) 0 c =
        (env.call handler c').bind (run env is 0) ∧
      SameStack c c' ∧ c'.reg .rdi = n ∧ c'.reg .rsi = c'.rsp :=
  ⟨(c.setReg .rdi n).setReg .rsi c.rsp, rfl,
    (SameStack.setReg (by decide)).trans (SameStack.setReg (by decide)), rfl, rfl⟩

theorem run_pushImm_save (ht : 184 ≤ (frameTop rsp0 c).toNat) (hl : env.loadable 0x10 = true) :
    run env ([.pushImm 0] ++ (pushAll ++ (loadKernelSegs ++ is))) 0 (deliver gate rsp0 none c) =
      run env is 0 (savedState env gate rsp0 0 c) := by
  have hrsp : (deliver gate rsp0 none c).rsp.toNat = (frameTop rsp0 c).toNat - 40 := rsp_deliver none (by omega)
  have htop : (frameTop rsp0 c).toNat % 16 = 0 := frameTop_mod
  have hstep : step env (.pushImm 0) (deliver gate rsp0 none c) = some (deliver gate rsp0 (some 0) c) := by
    rw [step, if_pos (by omega), pushVal_deliver]
  exact (run_cons hstep).trans (run_save ht hl)

/-- **A stub up to its call**, when the processor has pushed an error code exactly for the stubs that push none: the
frame of what was interrupted is complete, and it is passed to the handler. -/
theorem run_stub (s : Stub) {errorCode : Option UInt64} (he : errorCode.isSome = s.takesErrorCode)
    (ht : 184 ≤ (frameTop rsp0 c).toNat) (hl : env.loadable 0x10 = true) :
    ∃ c', run env s.code 0 (deliver gate rsp0 errorCode c) = (env.call s.handler c').bind (run env s.exitCode 0) ∧
      Entered gate rsp0 (errorCode.getD 0) c c' ∧ s.Arguments (entryFrame (errorCode.getD 0) c) c' := by
  have hentered : Entered gate rsp0 (errorCode.getD 0) c (savedState env gate rsp0 (errorCode.getD 0) c) :=
    entered_savedState ht
  have hframed := hentered.framed ht
  have hnone (h : s.takesErrorCode = false) : errorCode = none :=
    Option.isNone_iff_eq_none.1 (Option.isSome_eq_false_iff.1 (he.trans h))
  cases s with
  | isr n =>
    obtain ⟨c', hrun, hsame, harg⟩ := run_vector_arguments _ (UInt64.ofNat n)
    refine ⟨c', ?_, hentered.congr hsame, harg⟩
    by_cases hn : n.val ∈ errcodeStubs
    · obtain ⟨e, rfl⟩ := Option.isSome_iff_exists.1 (he.trans (decide_eq_true hn))
      rw [Stub.code, if_pos hn, isrErrcode, List.append_assoc, List.append_assoc, run_save ht hl]
      exact hrun
    · obtain rfl := hnone (decide_eq_false hn)
      rw [Stub.code, if_neg hn, isrNoErrcode]
      simp only [List.append_assoc]
      rw [run_pushImm_save ht hl]
      exact hrun
  | irq n =>
    obtain ⟨c', hrun, hsame, harg⟩ := run_vector_arguments
      (swapped env (entryFrame (errorCode.getD 0) c) (savedState env gate rsp0 (errorCode.getD 0) c)) (32 + UInt64.ofNat n)
    obtain rfl := hnone rfl
    refine ⟨c', ?_, hentered.congr (sameStack_swapped.trans hsame), harg⟩
    rw [Stub.code, irqStub]
    simp only [List.append_assoc]
    rw [run_pushImm_save ht hl]
    exact (run_swapUserGs hframed).trans hrun
  | syscallHandlerAsm =>
    obtain ⟨c', hrun, hsame, harg⟩ := run_syscall_arguments (hframed.congr sameStack_swapped)
    obtain rfl := hnone rfl
    refine ⟨c', ?_, hentered.congr (sameStack_swapped.trans hsame), harg⟩
    rw [Stub.code, syscallHandlerAsm]
    simp only [List.append_assoc]
    rw [run_pushImm_save ht hl]
    exact (run_swapUserGs hframed).trans hrun

/-! ## The return -/

/-- What `ds`, `es`, `fs` and `gs` keep of a selector on a return to code at `level`. -/
def keptSelector (env : Env Handler σ) (level selector : UInt16) : UInt16 :=
  if 0 < level ∧ env.dpl selector < level then 0 else selector

/-- **The processor has the registers of a frame.** -/
structure ShowsFrame (env : Env Handler σ) (f : CpuState) (c : Cpu σ) : Prop where
  reg : c.reg = f.reg
  rip : c.rip = f.rip
  rflags : c.rflags = f.rflags
  cs : c.seg .cs = f.cs.toUInt16
  ss : c.seg .ss = f.ss.toUInt16
  fs : c.seg .fs = keptSelector env (f.cs.toUInt16 &&& 3) f.fs.toUInt16
  gs : c.seg .gs = keptSelector env (f.cs.toUInt16 &&& 3) f.gs.toUInt16

/-- The processor resumes from `c` with a frame. -/
structure Resumed (env : Env Handler σ) (f : CpuState) (c c' : Cpu σ) : Prop extends ShowsFrame env f c' where
  mem : c'.mem = c.mem
  rest : c'.rest = c.rest

/-- The words that `POP_ALL` pops. -/
def poppedWords (f : CpuState) : List (Slot × UInt64) := poppedSlots.zip f.words

/-- What `POP_ALL` leaves. -/
structure PoppedAll (f : CpuState) (c p : Cpu σ) : Prop where
  reg : ∀ r, r ≠ .rsp → p.reg r = f.reg r
  rsp : p.rsp.toNat = c.rsp.toNat + 136
  cs : p.seg .cs = c.seg .cs
  fs : p.seg .fs = f.fs.toUInt16
  gs : p.seg .gs = f.gs.toUInt16
  mem : p.mem = c.mem
  rest : p.rest = c.rest

theorem poppedAll_pops (h : Framed f c) : PoppedAll f c (pops env c (poppedWords f)) where
  reg r hr := by
    cases r with
    | rsp => exact absurd rfl hr
    | _ => rfl
  rsp := by
    have hlt := h.lt
    have hlen : (poppedWords f).length = 17 := rfl
    rw [rsp_pops (by omega) (by simp [poppedWords, poppedSlots, CpuState.words]), hlen]
  cs := rfl
  fs := rfl
  gs := rfl
  mem := mem_pops
  rest := rfl

/-- **`POP_ALL`.** -/
theorem run_popAll (h : Framed f c) (hfs : env.loadable f.fs.toUInt16 = true) (hgs : env.loadable f.gs.toUInt16 = true) :
    run env (popAll ++ is) 0 c = run env is 0 (pops env c (poppedWords f)) := by
  have hlt := h.lt
  have hlen : (poppedWords f).length = 17 := rfl
  have hstack : Stacked c.mem c.rsp.toNat ((poppedWords f).map Prod.snd ++
      [f.errorCode, f.rip, f.cs, f.rflags, f.rsp, f.ss]) := h.frame
  refine run_pops h.aligned (by omega) (Stacked.append.1 hstack).1 ?_
  simp [poppedWords, poppedSlots, CpuState.words, Env.poppable, hfs, hgs]

/-- The error code is skipped. -/
def skipError (env : Env Handler σ) (p : Cpu σ) : Cpu σ :=
  { p.setReg .rsp (p.rsp + 8) with rflags := env.flags p.rflags (p.rsp + 8) }

variable {p : Cpu σ}

theorem rsp_skipError (h : Framed f c) (hp : PoppedAll f c p) : (skipError env p).rsp.toNat = c.rsp.toNat + 144 := by
  have hlt := h.lt
  have hrsp := hp.rsp
  have hskip : (skipError env p).rsp = p.rsp + 8 := rfl
  rw [hskip, toNat_add_eight (by omega), hrsp]

theorem cpl_skipError (hp : PoppedAll f c p) : (skipError env p).cpl = c.cpl := congrArg (· &&& 3) hp.cs

theorem stacked_skipError (h : Framed f c) (hp : PoppedAll f c p) :
    Stacked (skipError env p).mem (skipError env p).rsp.toNat [f.rip, f.cs, f.rflags, f.rsp, f.ss] := by
  have hmem : (skipError env p).mem = c.mem := hp.mem
  have hstack : Stacked c.mem c.rsp.toNat ((poppedWords f).map Prod.snd ++ [f.errorCode] ++
      [f.rip, f.cs, f.rflags, f.rsp, f.ss]) := h.frame
  rw [hmem, rsp_skipError h hp]
  exact (Stacked.append.1 hstack).2

theorem resumed_returned (hcpl : c.cpl = 0) (hp : PoppedAll f c p) :
    Resumed env f c ((skipError env p).returned env f.rip f.cs f.rflags f.rsp f.ss) := by
  have hreg : Function.update (skipError env p).reg .rsp f.rsp = f.reg := by
    funext r
    by_cases hr : r = .rsp
    · rw [hr, Function.update_self]
      rfl
    · rw [Function.update_of_ne hr]
      exact (Cpu.reg_setReg_of_ne hr).trans (hp.reg r hr)
  have hfs : (skipError env p).seg .fs = f.fs.toUInt16 := hp.fs
  have hgs : (skipError env p).seg .gs = f.gs.toUInt16 := hp.gs
  rw [Cpu.returned, cpl_skipError hp, hcpl]
  split_ifs with hlevel
  · refine ⟨⟨hreg, rfl, rfl, rfl, rfl, ?_, ?_⟩, hp.mem, hp.rest⟩
    · simp [Cpu.clearSegs, keptSelector, hlevel, hfs]
    · simp [Cpu.clearSegs, keptSelector, hlevel, hgs]
  · refine ⟨⟨hreg, rfl, rfl, rfl, rfl, ?_, ?_⟩, hp.mem, hp.rest⟩
    · rw [keptSelector, if_neg fun h => hlevel h.1]
      exact hfs
    · rw [keptSelector, if_neg fun h => hlevel h.1]
      exact hgs

/-- The processor can load the selectors of a frame. -/
structure Restorable (env : Env Handler σ) (f : CpuState) : Prop where
  fs : env.loadable f.fs.toUInt16 = true
  gs : env.loadable f.gs.toUInt16 = true
  returnable : env.returnable f.cs.toUInt16 f.ss.toUInt16 = true

theorem run_resume (h : Framed f c) (hcpl : c.cpl = 0) (hf : Restorable env f) :
    ∃ c', run env resume 0 c = some c' ∧ Resumed env f c c' := by
  have hrun : run env resume 0 c = run env [.addRsp 8, .iretq] 0 (pops env c (poppedWords f)) :=
    run_popAll h hf.fs hf.gs
  have hp : PoppedAll f c (pops env c (poppedWords f)) := poppedAll_pops h
  generalize pops env c (poppedWords f) = p at hrun hp
  have haligned : (skipError env p).rsp.toNat % 8 = 0 := by
    have := h.aligned
    rw [rsp_skipError h hp]
    omega
  refine ⟨_, ?_, resumed_returned hcpl hp⟩
  calc run env resume 0 c = iretq env (skipError env p) := hrun
    _ = _ := iretq_eq_some haligned (stacked_skipError h hp) ((cpl_skipError hp).trans hcpl) hf.returnable

/-- **The end of a stub**: the processor resumes with what the frame holds. -/
theorem run_exitCode (s : Stub) (h : Framed f c) (hcpl : c.cpl = 0) (hf : Restorable env f) :
    ∃ c', run env s.exitCode 0 c = some c' ∧ Resumed env f c c' := by
  have hswap : ∃ c', run env (swapUserGs ++ resume) 0 c = some c' ∧ Resumed env f c c' := by
    have hsame : SameStack c (swapped env f c) := sameStack_swapped
    obtain ⟨c', hrun, hres⟩ := run_resume (h.congr hsame) ((congrArg (· .cs &&& 3) hsame.seg).trans hcpl) hf
    exact ⟨c', (run_swapUserGs h).trans hrun,
      { hres with mem := hres.mem.trans hsame.mem, rest := hres.rest.trans hsame.rest }⟩
  cases s with
  | isr n => exact run_resume h hcpl hf
  | irq n => exact hswap
  | syscallHandlerAsm => exact hswap

/-! ## A whole interrupt -/

/-- The vector of a stub. -/
def Stub.vector : Stub → ℕ
  | .isr n => n
  | .irq n => 32 + n
  | .syscallHandlerAsm => 0x80

/-- The exceptions for which the processor pushes an error code. -/
def cpuErrorCodes : List ℕ := [8, 10, 11, 12, 13, 14, 17, 21, 29, 30]

theorem takesErrorCode_eq (s : Stub) : s.takesErrorCode = decide (s.vector ∈ cpuErrorCodes) := by
  cases s with
  | isr n => rfl
  | irq n =>
    revert n
    decide
  | syscallHandlerAsm => rfl

/-- **The processor takes an interrupt** through a gate that leads to a stub. -/
def interrupt (env : Env Handler σ) (gate : Gate) (rsp0 : UInt64) (s : Stub) (errorCode : Option UInt64) (c : Cpu σ) :
    Option (Cpu σ) :=
  run env s.code 0 (deliver gate rsp0 errorCode c)

/-- What compiled code keeps: the stack pointer and the segment registers. -/
structure KeepsStack (c c' : Cpu σ) : Prop where
  rsp : c'.rsp = c.rsp
  seg : c'.seg = c.seg

/-- **A whole interrupt**, for every stub: its handler is called with the frame of what was interrupted and with its
arguments, the stack pointer being 8 more than a multiple of 16; only the 23 words of the frame are written; and after
the handler the processor resumes with what the frame then holds. -/
theorem interrupt_spec (s : Stub) {errorCode : Option UInt64}
    (he : errorCode.isSome = decide (s.vector ∈ cpuErrorCodes)) (hg : gate.selector &&& 3 = 0)
    (ht : 184 ≤ (frameTop rsp0 c).toNat) (hl : env.loadable 0x10 = true) :
    ∃ atCall, Entered gate rsp0 (errorCode.getD 0) c atCall ∧
      s.Arguments (entryFrame (errorCode.getD 0) c) atCall ∧ atCall.rsp.toNat % 16 = 8 ∧
      ∀ after f, env.call s.handler atCall = some after → KeepsStack atCall after → Framed f after →
        Restorable env f → ∃ c', interrupt env gate rsp0 s errorCode c = some c' ∧ Resumed env f after c' := by
  obtain ⟨atCall, hrun, hentered, harg⟩ := run_stub s (he.trans (takesErrorCode_eq s).symm) ht hl
  refine ⟨atCall, hentered, harg, ?_, fun after f hcall hkeeps hframed hf => ?_⟩
  · have htop : (frameTop rsp0 c).toNat % 16 = 0 := frameTop_mod
    rw [hentered.rsp]
    omega
  · have hcpl : after.cpl = 0 := by
      rw [Cpu.cpl, hkeeps.seg, hentered.cs, hg]
    obtain ⟨c', hexit, hres⟩ := run_exitCode s hframed hcpl hf
    refine ⟨c', ?_, hres⟩
    rw [interrupt, hrun, hcall]
    exact hexit

/-- A processor whose tables allow everything, and handlers that return at once. -/
def idleEnv : Env Handler Unit where
  base _ := 0
  loadable _ := true
  dpl _ := 3
  returnable _ _ := true
  flags _ v := if v = 0 then 0x40 else 0
  zeroFlag_flags _ v := by
    by_cases hv : v = 0 <;> simp [hv, zeroFlag]
  call _ c := some c

/-- User code. -/
def userCpu (v : UInt64) : Cpu Unit :=
  ⟨fun _ => v, fun s => if s = .cs then 0x1B else 0x23, v, 0x202, 0, 0, 0, fun _ => 7, ()⟩

/-- A gate of the kernel. -/
def kernelGate : Gate := ⟨8, 0x1000⟩

theorem userCpu_level (v : UInt64) : (userCpu v).cpl ≠ 0 :=
  show (0x1B : UInt16) &&& 3 ≠ 0 by decide

theorem room_userCpu (v : UInt64) : 184 ≤ (frameTop 0x4000 (userCpu v)).toNat := by
  rw [frameTop, if_neg (userCpu_level v)]
  decide

theorem interrupt_spec_timer : ∃ c', interrupt idleEnv kernelGate 0x4000 (.irq 0) none (userCpu 5) = some c' ∧
    ShowsFrame idleEnv (entryFrame 0 (userCpu 5)) c' := by
  have he : (none : Option UInt64).isSome = decide (Stub.vector (.irq 0) ∈ cpuErrorCodes) := rfl
  have hg : kernelGate.selector &&& 3 = 0 := by decide
  have hl : idleEnv.loadable 0x10 = true := rfl
  obtain ⟨atCall, hentered, -, -, h⟩ := interrupt_spec (.irq 0) he hg (room_userCpu 5) hl
  obtain ⟨c', hrun, hres⟩ := h atCall _ rfl ⟨rfl, rfl⟩ (hentered.framed (room_userCpu 5)) ⟨rfl, rfl, rfl⟩
  exact ⟨c', hrun, hres.toShowsFrame⟩

end Stubs
