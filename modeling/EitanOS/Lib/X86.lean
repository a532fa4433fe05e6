import Mathlib.Data.UInt
import Mathlib.Logic.Function.Basic
import Mathlib.Tactic.Common

/-!
# A part of x86-64

The instructions with which a kernel saves and restores the registers of what it has interrupted, and what the
processor does when it delivers an interrupt and when it returns from one.

* `Cpu`, `Instr`, `step`, `run`: the processor and straight code with forward jumps. Memory is accessed in words of
  eight bytes at multiples of eight; the model stops at any other access.
* `Env`: what the descriptor tables say about selectors, the flags that arithmetic leaves, and the functions that are
  called.
* `deliver`: an interrupt is delivered. `iretq`: the return.
* **`run_pushes`**, **`run_pops`**: a list of registers is pushed and popped. `Stacked`: the words on the stack.
-/

namespace X86

/-- The general registers. -/
inductive Reg
  | rax | rbx | rcx | rdx | rsi | rdi | rbp | rsp | r8 | r9 | r10 | r11 | r12 | r13 | r14 | r15
deriving DecidableEq

/-- The segment registers. -/
inductive Seg
  | cs | ss | ds | es | fs | gs
deriving DecidableEq

/-- What can be pushed and popped. -/
inductive Slot
  | reg (r : Reg)
  | seg (s : Seg)
deriving DecidableEq

/-- The processor with its memory, and everything else. -/
structure Cpu (σ : Type*) where
  reg : Reg → UInt64
  seg : Seg → UInt16
  rip : UInt64
  rflags : UInt64
  fsBase : UInt64
  gsBase : UInt64
  kernelGsBase : UInt64
  mem : ℕ → UInt64
  rest : σ

/-- The instructions. `call` names a function, and `jz` skips instructions. -/
inductive Instr (κ : Type*)
  | push (x : Slot)
  | pop (x : Slot)
  | pushImm (v : UInt64)
  | movImm (r : Reg) (v : UInt64)
  | mov (r r' : Reg)
  | load (r : Reg) (offset : UInt64)
  | movAx (v : UInt16)
  | movSeg (s : Seg)
  | testByte (offset : UInt64) (mask : UInt8)
  | jz (skip : ℕ)
  | swapgs
  | addRsp (v : UInt64)
  | call (f : κ)
  | iretq

/-- `ZF`. -/
def zeroFlag (flags : UInt64) : Bool := flags &&& 0x40 ≠ 0

/-- What the processor finds: for a selector the base of its segment, whether it can be loaded into a data segment
register, and the level of its segment; the pairs of code and stack selectors that it can return to; the flags after
an operation; and the functions that are called. -/
structure Env (κ σ : Type*) where
  base : UInt16 → UInt64
  loadable : UInt16 → Bool
  dpl : UInt16 → UInt16
  returnable : UInt16 → UInt16 → Bool
  flags : UInt64 → UInt64 → UInt64
  zeroFlag_flags : ∀ old v, zeroFlag (flags old v) = decide (v = 0)
  call : κ → Cpu σ → Option (Cpu σ)

variable {κ σ : Type*}

/-! ## Single instructions -/

namespace Cpu

/-- The level of the code that runs. -/
def cpl (c : Cpu σ) : UInt16 := c.seg .cs &&& 3

/-- `rsp`. -/
def rsp (c : Cpu σ) : UInt64 := c.reg .rsp

/-- A register gets a value. -/
def setReg (c : Cpu σ) (r : Reg) (v : UInt64) : Cpu σ := { c with reg := Function.update c.reg r v }

@[simp]
theorem reg_setReg (c : Cpu σ) (r : Reg) (v : UInt64) : (c.setReg r v).reg r = v := by
  simp only [setReg, Function.update_self]

theorem reg_setReg_of_ne {c : Cpu σ} {r r' : Reg} {v : UInt64} (h : r' ≠ r) : (c.setReg r v).reg r' = c.reg r' := by
  simp only [setReg, Function.update_of_ne h]

/-- A segment register gets a selector, and with it the base of its segment. -/
def setSeg (env : Env κ σ) (c : Cpu σ) (s : Seg) (v : UInt16) : Cpu σ :=
  { c with
    seg := Function.update c.seg s v
    fsBase := if s = .fs then env.base v else c.fsBase
    gsBase := if s = .gs then env.base v else c.gsBase }

/-- What is pushed. -/
def get (c : Cpu σ) : Slot → UInt64
  | .reg r => c.reg r
  | .seg s => (c.seg s).toUInt64

/-- What is popped. -/
def put (env : Env κ σ) (c : Cpu σ) (w : UInt64) : Slot → Cpu σ
  | .reg r => c.setReg r w
  | .seg s => c.setSeg env s w.toUInt16

/-- The word at an address. -/
def loadWord (c : Cpu σ) (a : UInt64) : Option UInt64 := if a.toNat % 8 = 0 then some (c.mem a.toNat) else none

/-- The byte at an address. -/
def loadByte (c : Cpu σ) (a : UInt64) : UInt8 :=
  (c.mem (a.toNat - a.toNat % 8) >>> (8 * (a % 8))).toUInt8

/-- A word is pushed. -/
def pushVal (c : Cpu σ) (v : UInt64) : Cpu σ :=
  { c with
    reg := Function.update c.reg .rsp (c.rsp - 8)
    mem := Function.update c.mem (c.rsp - 8).toNat v }

/-- Words are pushed one after the other. -/
def pushVals (c : Cpu σ) (vs : List UInt64) : Cpu σ := vs.foldl pushVal c

end Cpu

/-- A selector may be popped into a slot. -/
def Env.poppable (env : Env κ σ) (w : UInt64) : Slot → Bool
  | .reg _ => true
  | .seg _ => env.loadable w.toUInt16

/-- The instructions but `jz` and `iretq`. -/
def step (env : Env κ σ) : Instr κ → Cpu σ → Option (Cpu σ)
  | .push x, c => if c.rsp.toNat % 8 = 0 then some (c.pushVal (c.get x)) else none
  | .pop x, c => (c.loadWord c.rsp).bind fun w =>
      if env.poppable w x then some ((c.setReg .rsp (c.rsp + 8)).put env w x) else none
  | .pushImm v, c => if c.rsp.toNat % 8 = 0 then some (c.pushVal v) else none
  | .movImm r v, c => some (c.setReg r v)
  | .mov r r', c => some (c.setReg r (c.reg r'))
  | .load r offset, c => (c.loadWord (c.rsp + offset)).map (c.setReg r)
  | .movAx v, c => some (c.setReg .rax (c.reg .rax &&& 0xFFFFFFFFFFFF0000 ||| v.toUInt64))
  | .movSeg s, c =>
      if env.loadable (c.reg .rax).toUInt16 then some (c.setSeg env s (c.reg .rax).toUInt16) else none
  | .testByte offset mask, c =>
      some { c with rflags := env.flags c.rflags (c.loadByte (c.rsp + offset) &&& mask).toUInt64 }
  | .swapgs, c => some { c with gsBase := c.kernelGsBase, kernelGsBase := c.gsBase }
  | .addRsp v, c => some { c.setReg .rsp (c.rsp + v) with rflags := env.flags c.rflags (c.rsp + v) }
  | .call f, c => env.call f c
  | .jz _, _ => none
  | .iretq, _ => none

/-- The data segment registers that an outer level may not keep are cleared. -/
def Cpu.clearSegs (env : Env κ σ) (c : Cpu σ) (level : UInt16) : Cpu σ :=
  { c with seg := fun s =>
      if s ≠ .cs ∧ s ≠ .ss ∧ env.dpl (c.seg s) < level then 0 else c.seg s }

/-- The state after a return with five words. -/
def Cpu.returned (env : Env κ σ) (c : Cpu σ) (rip cs rflags rsp ss : UInt64) : Cpu σ :=
  let c' : Cpu σ := { c with
    reg := Function.update c.reg .rsp rsp
    seg := Function.update (Function.update c.seg .cs cs.toUInt16) .ss ss.toUInt16
    rip := rip
    rflags := rflags }
  if c.cpl < cs.toUInt16 &&& 3 then c'.clearSegs env (cs.toUInt16 &&& 3) else c'

/-- `iretq`: five words are popped. The level does not fall, and the descriptors must allow the return. -/
def iretq (env : Env κ σ) (c : Cpu σ) : Option (Cpu σ) :=
  if c.rsp.toNat % 8 = 0 then
    let word (i : ℕ) := c.mem (c.rsp.toNat + 8 * i)
    if c.cpl ≤ (word 1).toUInt16 &&& 3 ∧ env.returnable (word 1).toUInt16 (word 4).toUInt16 then
      some (c.returned env (word 0) (word 1) (word 2) (word 3) (word 4))
    else none
  else none

/-- Code up to its `iretq`. The number says how many instructions are skipped. -/
def run (env : Env κ σ) : List (Instr κ) → ℕ → Cpu σ → Option (Cpu σ)
  | [], _, _ => none
  | _ :: is, n + 1, c => run env is n c
  | .jz skip :: is, 0, c => run env is (if zeroFlag c.rflags then skip else 0) c
  | .iretq :: _, 0, c => iretq env c
  | i :: is, 0, c => (step env i c).bind (run env is 0)

/-! ## Interrupts -/

/-- A gate of the interrupt descriptor table: where it leads. -/
structure Gate where
  selector : UInt16
  offset : UInt64

/-- The stack pointer for a new frame: the next multiple of 16. -/
def alignDown (a : UInt64) : UInt64 := a - a % 16

/-- `IF`, `TF`, `NT` and `RF` are cleared. -/
def gateFlags (flags : UInt64) : UInt64 := flags &&& 0xFFFFFFFFFFFEBCFF

/-- Where a new frame ends: from an outer level, on the stack `rsp0`. -/
def frameTop (rsp0 : UInt64) (c : Cpu σ) : UInt64 := alignDown (if c.cpl = 0 then c.rsp else rsp0)

/-- What is pushed, in this order. -/
def frameWords (errorCode : Option UInt64) (c : Cpu σ) : List UInt64 :=
  [(c.seg .ss).toUInt64, c.rsp, c.rflags, (c.seg .cs).toUInt64, c.rip] ++ errorCode.toList

/-- **An interrupt is delivered** through an interrupt gate to level 0. -/
def deliver (gate : Gate) (rsp0 : UInt64) (errorCode : Option UInt64) (c : Cpu σ) : Cpu σ :=
  let c' := (c.setReg .rsp (frameTop rsp0 c)).pushVals (frameWords errorCode c)
  { c' with
    seg := Function.update (Function.update c.seg .cs gate.selector) .ss (if c.cpl = 0 then c.seg .ss else 0)
    rip := gate.offset
    rflags := gateFlags c.rflags }

/-! ## The stack -/

/-- The words from an address on. -/
def Stacked (mem : ℕ → UInt64) : ℕ → List UInt64 → Prop
  | _, [] => True
  | a, w :: ws => mem a = w ∧ Stacked mem (a + 8) ws

variable {env : Env κ σ} {c : Cpu σ} {is : List (Instr κ)} {mem mem' : ℕ → UInt64} {a b n : ℕ} {v w : UInt64}
  {vs ws rest : List UInt64} {xs : List Slot} {x : Slot} {r : Reg}

namespace Stacked

theorem congr (h : Stacked mem a ws) (hm : ∀ k, a ≤ k → k < a + 8 * ws.length → mem' k = mem k) :
    Stacked mem' a ws := by
  induction ws generalizing a with
  | nil => trivial
  | cons w ws ih =>
    rw [List.length_cons] at hm
    exact ⟨(hm a le_rfl (by omega)).trans h.1, ih h.2 fun k hk hk' => hm k (by omega) (by omega)⟩

theorem append : Stacked mem a (vs ++ ws) ↔ Stacked mem a vs ∧ Stacked mem (a + 8 * vs.length) ws := by
  induction vs generalizing a with
  | nil => simp [Stacked]
  | cons v vs ih =>
    have hlen : a + 8 + 8 * vs.length = a + 8 * (vs.length + 1) := by omega
    rw [List.cons_append, Stacked, Stacked, ih, List.length_cons, hlen, and_assoc]

theorem getElem (h : Stacked mem a ws) {i : ℕ} (hi : i < ws.length) : mem (a + 8 * i) = ws[i] := by
  induction ws generalizing a i with
  | nil => exact absurd hi (Nat.not_lt_zero i)
  | cons w ws ih =>
    cases i with
    | zero => exact h.1
    | succ i =>
      have := ih h.2 (Nat.lt_of_succ_lt_succ hi)
      rw [List.getElem_cons_succ, ← this]
      congr 1
      omega

end Stacked

namespace Cpu

/-- The stack pointer is a multiple of eight with `n` words below it. -/
structure Room (c : Cpu σ) (n : ℕ) : Prop where
  aligned : c.rsp.toNat % 8 = 0
  le : 8 * n ≤ c.rsp.toNat

theorem Room.mono {m : ℕ} (h : c.Room n) (hm : m ≤ n) : c.Room m := ⟨h.aligned, by have := h.le; omega⟩

theorem toNat_sub_eight (h : 8 ≤ v.toNat) : (v - 8).toNat = v.toNat - 8 :=
  UInt64.toNat_sub_of_le _ _ (UInt64.le_iff_toNat_le.2 h)

theorem Room.rsp_pushVal (h : c.Room (n + 1)) : (c.pushVal v).rsp.toNat = c.rsp.toNat - 8 :=
  toNat_sub_eight (by have := h.le; omega)

theorem Room.pushVal (h : c.Room (n + 1)) : (c.pushVal v).Room n := by
  have hle := h.le
  have haligned := h.aligned
  have hrsp : (c.pushVal v).rsp.toNat = _ := h.rsp_pushVal
  exact ⟨by omega, by omega⟩

theorem pushVals_cons : c.pushVals (v :: vs) = (c.pushVal v).pushVals vs := rfl

theorem rsp_pushVals (h : c.Room vs.length) : (c.pushVals vs).rsp.toNat = c.rsp.toNat - 8 * vs.length := by
  induction vs generalizing c with
  | nil => rfl
  | cons v vs ih =>
    rw [pushVals_cons, ih h.pushVal, h.rsp_pushVal, List.length_cons]
    omega

theorem mem_pushVals (h : c.Room vs.length) {k : ℕ} (hk : k < c.rsp.toNat - 8 * vs.length ∨ c.rsp.toNat ≤ k) :
    (c.pushVals vs).mem k = c.mem k := by
  induction vs generalizing c with
  | nil => rfl
  | cons v vs ih =>
    have hle := h.le
    have hrsp : (c.pushVal v).rsp.toNat = _ := h.rsp_pushVal
    have hsub : (c.rsp - 8).toNat = c.rsp.toNat - 8 := hrsp
    rw [List.length_cons] at hle hk
    rw [pushVals_cons, ih h.pushVal (by omega)]
    exact Function.update_of_ne (by omega) _ _

/-- **What is on the stack** after some words were pushed. -/
theorem stacked_pushVals (h : c.Room vs.length) (hs : Stacked c.mem c.rsp.toNat ws) :
    Stacked (c.pushVals vs).mem (c.pushVals vs).rsp.toNat (vs.reverse ++ ws) := by
  induction vs generalizing c ws with
  | nil => exact hs
  | cons v vs ih =>
    have hle := h.le
    rw [List.length_cons] at hle
    have hsub : (c.rsp - 8).toNat = c.rsp.toNat - 8 := toNat_sub_eight (by omega)
    have htop : Stacked (c.pushVal v).mem (c.pushVal v).rsp.toNat (v :: ws) := by
      refine ⟨Function.update_self _ _ _, ?_⟩
      rw [h.rsp_pushVal, Nat.sub_add_cancel (by omega)]
      exact hs.congr fun k hk _ => Function.update_of_ne (by omega) _ _
    rw [pushVals_cons, List.reverse_cons, List.append_assoc, List.singleton_append]
    exact ih h.pushVal htop

theorem reg_pushVals (hr : r ≠ .rsp) : (c.pushVals vs).reg r = c.reg r := by
  induction vs generalizing c with
  | nil => rfl
  | cons v vs ih =>
    rw [pushVals_cons, ih]
    exact Function.update_of_ne hr _ _

theorem pushVals_eq (c : Cpu σ) (vs : List UInt64) :
    c.pushVals vs = { c with reg := (c.pushVals vs).reg, mem := (c.pushVals vs).mem } := by
  induction vs generalizing c with
  | nil => rfl
  | cons v vs ih => exact ih (c.pushVal v)

end Cpu

/-! ## A delivered interrupt -/

section Delivery

variable {gate : Gate} {rsp0 e : UInt64}

theorem rsp_setReg : (c.setReg .rsp v).rsp = v := c.reg_setReg .rsp v

theorem toNat_alignDown (v : UInt64) : (alignDown v).toNat = v.toNat - v.toNat % 16 := by
  have h16 : (16 : UInt64).toNat = 16 := rfl
  have hmod : (v % 16).toNat = v.toNat % 16 := by rw [UInt64.toNat_mod, h16]
  rw [alignDown, UInt64.toNat_sub_of_le _ _ (UInt64.le_iff_toNat_le.2 (by omega)), hmod]

theorem pushVal_deliver : (deliver gate rsp0 none c).pushVal v = deliver gate rsp0 (some v) c := rfl

theorem frameTop_mod : (frameTop rsp0 c).toNat % 16 = 0 := by
  rw [frameTop, toNat_alignDown]
  omega

theorem room_frameTop (h : 8 * n ≤ (frameTop rsp0 c).toNat) : (c.setReg .rsp (frameTop rsp0 c)).Room n := by
  have htop : (frameTop rsp0 c).toNat % 16 = 0 := frameTop_mod
  refine ⟨?_, ?_⟩ <;> rw [rsp_setReg]
  · omega
  · exact h

theorem room_frameWords (errorCode : Option UInt64) (h : 48 ≤ (frameTop rsp0 c).toNat) :
    (c.setReg .rsp (frameTop rsp0 c)).Room (frameWords errorCode c).length :=
  (room_frameTop (n := 6) h).mono (by cases errorCode <;> simp [frameWords])

theorem rsp_deliver (errorCode : Option UInt64) (h : 48 ≤ (frameTop rsp0 c).toNat) :
    (deliver gate rsp0 errorCode c).rsp.toNat = (frameTop rsp0 c).toNat - 8 * (frameWords errorCode c).length := by
  have hreg : (deliver gate rsp0 errorCode c).reg =
      ((c.setReg .rsp (frameTop rsp0 c)).pushVals (frameWords errorCode c)).reg := by
    rw [deliver]
  rw [Cpu.rsp, hreg, ← Cpu.rsp, Cpu.rsp_pushVals (room_frameWords errorCode h), rsp_setReg]

/-- **The frame that the processor pushes.** -/
theorem stacked_deliver (h : 48 ≤ (frameTop rsp0 c).toNat) :
    Stacked (deliver gate rsp0 (some e) c).mem (deliver gate rsp0 (some e) c).rsp.toNat
      [e, c.rip, (c.seg .cs).toUInt64, c.rflags, c.rsp, (c.seg .ss).toUInt64] :=
  Cpu.stacked_pushVals (room_frameWords (some e) h) (show Stacked _ _ [] from trivial)

theorem mem_deliver (h : 48 ≤ (frameTop rsp0 c).toNat) {k : ℕ}
    (hk : k < (frameTop rsp0 c).toNat - 48 ∨ (frameTop rsp0 c).toNat ≤ k) :
    (deliver gate rsp0 (some e) c).mem k = c.mem k := by
  refine Cpu.mem_pushVals (room_frameWords (some e) h) ?_
  rw [rsp_setReg]
  exact hk

theorem reg_deliver {errorCode : Option UInt64} (hr : r ≠ .rsp) :
    (deliver gate rsp0 errorCode c).reg r = c.reg r :=
  (Cpu.reg_pushVals hr).trans (Function.update_of_ne hr _ _)

end Delivery

/-! ## Running code -/

theorem run_skip {i : Instr κ} : run env (i :: is) (n + 1) c = run env is n c := by
  cases i <;> rfl

theorem run_cons {i : Instr κ} {c' : Cpu σ} (h : step env i c = some c') : run env (i :: is) 0 c = run env is 0 c' := by
  cases i with
  | jz skip => exact absurd h (Option.some_ne_none c').symm
  | iretq => exact absurd h (Option.some_ne_none c').symm
  | _ => exact (congrArg (Option.bind · (run env is 0)) h)

theorem loadByte_aligned (h : v.toNat % 8 = 0) : c.loadByte v = (c.mem v.toNat).toUInt8 := by
  have h8 : (8 : UInt64).toNat = 8 := rfl
  have hmod : v % 8 = 0 := by
    rw [← UInt64.toNat_inj, UInt64.toNat_mod, h8, h]
    rfl
  rw [Cpu.loadByte, hmod, h, Nat.sub_zero, UInt64.mul_zero, UInt64.shiftRight_zero]

theorem get_pushVal (hx : x ≠ .reg .rsp) : (c.pushVal v).get x = c.get x := by
  cases x with
  | reg r => exact Function.update_of_ne (fun e => hx (congrArg Slot.reg e)) _ _
  | seg s => rfl

/-- **A list of registers is pushed.** -/
theorem run_pushes (h : c.Room xs.length) (hx : ∀ x ∈ xs, x ≠ .reg .rsp) :
    run env (xs.map .push ++ is) 0 c = run env is 0 (c.pushVals (xs.map c.get)) := by
  induction xs generalizing c with
  | nil => rfl
  | cons x xs ih =>
    rw [List.forall_mem_cons] at hx
    have hget : xs.map (c.pushVal (c.get x)).get = xs.map c.get :=
      List.map_congr_left fun y hy => get_pushVal (hx.2 y hy)
    have hstep : step env (.push x) c = some (c.pushVal (c.get x)) := if_pos h.aligned
    rw [List.map_cons, List.cons_append, run_cons hstep, ih h.pushVal hx.2, hget]
    rfl

/-- The processor after some words were popped. -/
def pops (env : Env κ σ) : Cpu σ → List (Slot × UInt64) → Cpu σ
  | c, [] => c
  | c, (x, w) :: l => pops env ((c.setReg .rsp (c.rsp + 8)).put env w x) l

theorem rsp_put (hx : x ≠ .reg .rsp) : (c.put env w x).rsp = c.rsp := by
  cases x with
  | reg r => exact Function.update_of_ne (fun e => hx (congrArg Slot.reg e.symm)) _ _
  | seg s => rfl

theorem mem_put : (c.put env w x).mem = c.mem := by
  cases x <;> rfl

theorem toNat_add_eight (h : v.toNat + 8 < 2 ^ 64) : (v + 8).toNat = v.toNat + 8 := by
  rw [UInt64.toNat_add]
  exact Nat.mod_eq_of_lt h

theorem toNat_rsp_pop (hx : x ≠ .reg .rsp) (h : c.rsp.toNat + 8 < 2 ^ 64) :
    ((c.setReg .rsp (c.rsp + 8)).put env w x).rsp.toNat = c.rsp.toNat + 8 := by
  rw [rsp_put hx, rsp_setReg, toNat_add_eight h]

/-- **A list of registers is popped.** -/
theorem run_pops {l : List (Slot × UInt64)} (ha : c.rsp.toNat % 8 = 0) (hle : c.rsp.toNat + 8 * l.length < 2 ^ 64)
    (hs : Stacked c.mem c.rsp.toNat (l.map Prod.snd)) (hx : ∀ y ∈ l, y.1 ≠ .reg .rsp ∧ env.poppable y.2 y.1 = true) :
    run env (l.map (fun y => .pop y.1) ++ is) 0 c = run env is 0 (pops env c l) := by
  induction l generalizing c with
  | nil => rfl
  | cons y l ih =>
    obtain ⟨x, w⟩ := y
    rw [List.forall_mem_cons] at hx
    rw [List.length_cons] at hle
    have hload : c.loadWord c.rsp = some w := (if_pos ha).trans (congrArg some hs.1)
    have hrsp : ((c.setReg .rsp (c.rsp + 8)).put env w x).rsp.toNat = c.rsp.toNat + 8 :=
      toNat_rsp_pop hx.1.1 (by omega)
    have hstep : step env (.pop x) c = some ((c.setReg .rsp (c.rsp + 8)).put env w x) := by
      rw [step, hload, Option.bind_some, if_pos hx.1.2]
    rw [List.map_cons, List.cons_append, run_cons hstep]
    refine ih (by omega) (by omega) ?_ hx.2
    rw [hrsp, mem_put]
    exact hs.2

theorem rsp_pops {l : List (Slot × UInt64)} (hle : c.rsp.toNat + 8 * l.length < 2 ^ 64)
    (hx : ∀ y ∈ l, y.1 ≠ .reg .rsp) : (pops env c l).rsp.toNat = c.rsp.toNat + 8 * l.length := by
  induction l generalizing c with
  | nil => rfl
  | cons y l ih =>
    obtain ⟨x, w⟩ := y
    rw [List.forall_mem_cons] at hx
    rw [List.length_cons] at hle
    have hrsp : ((c.setReg .rsp (c.rsp + 8)).put env w x).rsp.toNat = c.rsp.toNat + 8 :=
      toNat_rsp_pop hx.1 (by omega)
    rw [pops, ih (by omega) hx.2, hrsp, List.length_cons]
    omega

theorem mem_pops {l : List (Slot × UInt64)} : (pops env c l).mem = c.mem := by
  induction l generalizing c with
  | nil => rfl
  | cons y l ih =>
    rw [pops, ih, mem_put]
    rfl

/-- **The return** from level 0. -/
theorem iretq_eq_some {rip cs rflags rsp ss : UInt64} (ha : c.rsp.toNat % 8 = 0)
    (hs : Stacked c.mem c.rsp.toNat [rip, cs, rflags, rsp, ss]) (hcpl : c.cpl = 0)
    (hret : env.returnable cs.toUInt16 ss.toUInt16 = true) :
    iretq env c = some (c.returned env rip cs rflags rsp ss) := by
  obtain ⟨h₀, h₁, h₂, h₃, h₄, -⟩ := hs
  simp only [Nat.add_assoc, Nat.reduceAdd] at h₁ h₂ h₃ h₄
  rw [iretq, if_pos ha]
  simp only [Nat.reduceMul, Nat.add_zero, h₀, h₁, h₂, h₃, h₄]
  rw [if_pos ⟨hcpl ▸ UInt16.zero_le, hret⟩]

end X86
