import Nyvela.Preemption

/-!
# Device interrupts

`isr_pit` and `isr_kbd` call their C handlers with nothing saved. What the interrupted code
finds in its registers is then what the handler leaves there.
-/

namespace Nyvela

open X86 X86.Cpu

/-- A stub that only calls its handler, which returns to `ra`. -/
def deviceIsr (handler : Cpu → Cpu) (ra : Word) (s : Cpu) : Cpu := (s.call ra handler).iretq

def isrPit (isrPitHandler : Cpu → Cpu) (ra : Word) (s : Cpu) : Cpu := deviceIsr isrPitHandler ra s

def isrKbd (kbdIrqHandler : Cpu → Cpu) (ra : Word) (s : Cpu) : Cpu := deviceIsr kbdIrqHandler ra s

/-- The machine at the first instruction of the handler: an interrupt has come in `s`, its gate
leads to the stub at `stub`, and the stub has called. -/
def handlerEntry (rsp0 stub ra : Word) (s : Cpu) : Cpu :=
  (s.interrupt rsp0 kernelCs stub).push ra

section Stub

variable {f : Cpu → Cpu} {s : Cpu} {rsp0 stub ra : Word}

/-- The interrupted code goes on where it was, on its own stack, with the other registers as the
handler left them. -/
theorem deviceIsr_interrupt (h : Conforms f (handlerEntry rsp0 stub ra s) 5) :
    deviceIsr f ra (s.interrupt rsp0 kernelCs stub) =
      { f (handlerEntry rsp0 stub ra s) with
        reg := Function.update (f (handlerEntry rsp0 stub ra s)).reg .rsp (s.reg .rsp)
        rip := s.rip
        cs := s.cs
        rflags := s.rflags
        ss := s.ss } :=
  iretq_eq ((interrupt_top s rsp0 kernelCs stub).call (by simp) h).words

theorem deviceIsr_registers_iff (h : Conforms f (handlerEntry rsp0 stub ra s) 5) :
    (∀ r, (deviceIsr f ra (s.interrupt rsp0 kernelCs stub)).reg r = s.reg r) ↔
      ∀ r ∈ callerSaved, (f (handlerEntry rsp0 stub ra s)).reg r = s.reg r := by
  rw [deviceIsr_interrupt h]
  dsimp only
  constructor
  · intro hall r hr
    rw [← hall r, Function.update_of_ne (ne_rsp_of_callerSaved r hr)]
  · intro hall r
    rcases saved_cases r with rfl | hr | hr
    · exact Function.update_self ..
    · exact (Function.update_of_ne (ne_rsp_of_callerSaved r hr) ..).trans (hall r hr)
    · have hne := ne_rsp_of_calleeSaved r hr
      refine (Function.update_of_ne hne ..).trans ((h.saved r hr).trans ?_)
      rw [handlerEntry, push_reg _ _ hne, interrupt_reg s _ _ _ hne]

/-- For every register file and every handler that keeps to the calling convention, the
interrupted code finds its registers as they were exactly if the handler happens to leave the
nine caller-saved ones as it found them. -/
theorem device_interrupt_preserves_iff (f : Cpu → Cpu) (s : Cpu) (rsp0 stub ra : Word)
    (h : Conforms f (handlerEntry rsp0 stub ra s) 5) :
    ((∀ r, (isrPit f ra (s.interrupt rsp0 kernelCs stub)).reg r = s.reg r) ↔
      ∀ r ∈ callerSaved, (f (handlerEntry rsp0 stub ra s)).reg r = s.reg r) ∧
    ((∀ r, (isrKbd f ra (s.interrupt rsp0 kernelCs stub)).reg r = s.reg r) ↔
      ∀ r ∈ callerSaved, (f (handlerEntry rsp0 stub ra s)).reg r = s.reg r) :=
  ⟨deviceIsr_registers_iff h, deviceIsr_registers_iff h⟩

end Stub

/-- A function that puts an argument in `rdi`, as both handlers do to call `kpic_eoi`, and
returns. -/
def setsRdi (v : Word) (s : Cpu) : Cpu := (s.setReg .rdi v).ret

theorem setsRdi_conforms (v : Word) (s : Cpu) (n : ℕ) : Conforms (setsRdi v) s n where
  rip := rfl
  rsp := rfl
  saved := by
    intro r hr
    have hrdi : r ≠ .rdi := by
      rintro rfl
      exact absurd hr (by decide)
    exact (Function.update_of_ne (ne_rsp_of_calleeSaved r hr) ..).trans
      (Function.update_of_ne hrdi ..)
  frame := fun _ _ => rfl

/-- Code in ring 0 with the value 7 in every register but `rsp`. -/
def sevens : Cpu where
  reg := fun r => if r = .rsp then 0x20000 else 7
  rip := 0x100000
  rflags := 0x202
  cs := kernelCs
  ss := 0x10
  cr3 := 0x1000
  mem := fun _ => 0

theorem device_interrupt_preserves_sevens :
    (isrPit (setsRdi 7) 0x3000 (sevens.interrupt 0 kernelCs 0x2000)).reg = sevens.reg := by
  funext r
  refine (device_interrupt_preserves_iff (setsRdi 7) sevens 0 0x2000 0x3000
    (setsRdi_conforms ..)).1.mpr (fun r hr => ?_) r
  have h1 := ne_rsp_of_callerSaved r hr
  have hreg : (setsRdi 7 (handlerEntry 0 0x2000 0x3000 sevens)).reg r =
      Function.update (handlerEntry 0 0x2000 0x3000 sevens).reg .rdi 7 r :=
    Function.update_of_ne h1 ..
  rw [hreg]
  by_cases h2 : r = .rdi
  · rw [h2, Function.update_self]
    rfl
  · rw [Function.update_of_ne h2, handlerEntry, push_reg _ _ h1, interrupt_reg _ _ _ _ h1]

/-- Either stub loses `rdi` of the code that it interrupts. -/
theorem device_interrupt_loses_rdi :
    (Conforms (setsRdi 0) (handlerEntry 0 0x2000 0x3000 sevens) 5 ∧
      (isrPit (setsRdi 0) 0x3000 (sevens.interrupt 0 kernelCs 0x2000)).reg .rdi ≠
        sevens.reg .rdi) ∧
    (Conforms (setsRdi 1) (handlerEntry 0 0x2000 0x3000 sevens) 5 ∧
      (isrKbd (setsRdi 1) 0x3000 (sevens.interrupt 0 kernelCs 0x2000)).reg .rdi ≠
        sevens.reg .rdi) := by
  refine ⟨⟨setsRdi_conforms .., ?_⟩, setsRdi_conforms .., ?_⟩
  · have hrdi : (isrPit (setsRdi 0) 0x3000 (sevens.interrupt 0 kernelCs 0x2000)).reg .rdi = 0 := rfl
    rw [hrdi]
    decide
  · have hrdi : (isrKbd (setsRdi 1) 0x3000 (sevens.interrupt 0 kernelCs 0x2000)).reg .rdi = 1 := rfl
    rw [hrdi]
    decide

end Nyvela
