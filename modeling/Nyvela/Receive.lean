import Nyvela.Keyboard
import Nyvela.ThreadConservation
import Nyvela.UserCopy

/-!
# What a failed receive loses

`sys_ipc_poll` and `sys_read` take the data out of the kernel first and look at where it is to
go afterwards. If that is refused, the message or the characters are gone.
-/

namespace Nyvela

/-! ## Messages -/

namespace Threads

/-- `sys_ipc_poll` with the memory it writes. The payload is read from physical memory, and
`sender` is the address of `msg.sender` on the kernel stack. -/
def sysIpcPollAt (s : Threads) (v : Vmm) (uaddr capacity senderOut : Word) (sender : ℕ) :
    Option (ℕ × Threads × Vmm) :=
  match s.kipcPoll with
  | (none, s) => some (0, s, v)
  | (some m, s) =>
    let cr3 := (s.context (s.thread s.currentThread).context).cr3
    if capacity.toNat < m.size then some (0, s.kfree m.msg, v)
    else
      (v.copyToUserAt cr3 uaddr m.msg m.size).bind fun (r, v) =>
        if r ≠ 0 then some (0, s.kfree m.msg, v)
        else if senderOut ≠ 0 then
          (v.copyToUserAt cr3 senderOut sender 8).bind fun (r, v) =>
            if r ≠ 0 then some (0, s.kfree m.msg, v) else some (m.size, s.kfree m.msg, v)
        else some (m.size, s.kfree m.msg, v)

/-- The queue of the current thread. -/
def inbox (s : Threads) : IpcQueue := s.queue (s.thread s.currentThread).queue

/-- The message fits and both copies are accepted. -/
def Accepts (s : Threads) (v : Vmm) (uaddr capacity senderOut : Word) (sender : ℕ) (m : IpcMsg) :
    Prop :=
  let cr3 := (s.context (s.thread s.currentThread).context).cr3
  m.size ≤ capacity.toNat ∧ ∃ v₁, v.copyToUserAt cr3 uaddr m.msg m.size = some (0, v₁) ∧
    (senderOut = 0 ∨ ∃ v₂, v₁.copyToUserAt cr3 senderOut sender 8 = some (0, v₂))

variable {s s' : Threads} {v v' : Vmm} {uaddr capacity senderOut : Word} {sender r : ℕ}

theorem kipcPoll_empty (h : s.inbox.count = 0) : s.kipcPoll = (none, s) := by
  rw [kipcPoll, ipcPollFrom, show (s.queue (s.thread s.currentThread).queue).count = 0 from h]
  simp [setQueue]

theorem kipcPoll_some (h : s.inbox.count ≠ 0) : s.kipcPoll = (some (s.inbox.cells s.inbox.head),
    s.setQueue (s.thread s.currentThread).queue
      { s.inbox with
        head := (s.inbox.head + 1) % s.inbox.capacity, count := s.inbox.count - 1 }) := by
  have hfrom : ipcPollFrom s.inbox = (some (s.inbox.cells s.inbox.head), { s.inbox with
      head := (s.inbox.head + 1) % s.inbox.capacity, count := s.inbox.count - 1 }) := if_neg h
  rw [inbox] at hfrom
  rw [kipcPoll, hfrom]
  rfl

/-- Without a message nothing happens. -/
theorem sysIpcPollAt_empty (h : s.inbox.count = 0) :
    s.sysIpcPollAt v uaddr capacity senderOut sender = some (0, s, v) := by
  rw [sysIpcPollAt, kipcPoll_empty h]

/-- With one, it leaves the queue on every way out. -/
theorem sysIpcPollAt_cases (h : s.inbox.count ≠ 0)
    (hr : s.sysIpcPollAt v uaddr capacity senderOut sender = some (r, s', v')) :
    s' = s.kipcPoll.2.kfree (s.inbox.cells s.inbox.head).msg ∧
      (r = (s.inbox.cells s.inbox.head).size ∧
          s.Accepts v uaddr capacity senderOut sender (s.inbox.cells s.inbox.head) ∨
        r = 0 ∧ ¬s.Accepts v uaddr capacity senderOut sender (s.inbox.cells s.inbox.head)) := by
  obtain ⟨m, hm⟩ : ∃ m, m = s.inbox.cells s.inbox.head := ⟨_, rfl⟩
  obtain ⟨s₁, hs₁⟩ : ∃ s₁, s₁ = s.kipcPoll.2 := ⟨_, rfl⟩
  have hpoll : s.kipcPoll = (some m, s₁) := by
    refine Prod.ext ?_ hs₁.symm
    rw [hm, kipcPoll_some h]
  have hcr3 : (s₁.context (s₁.thread s₁.currentThread).context).cr3 =
      (s.context (s.thread s.currentThread).context).cr3 := by rw [hs₁]; rfl
  rw [sysIpcPollAt, hpoll] at hr
  dsimp only at hr
  rw [hcr3] at hr
  rw [← hm, ← hs₁]
  by_cases hfit : capacity.toNat < m.size
  · rw [if_pos hfit] at hr
    obtain ⟨rfl, rfl, rfl⟩ : 0 = r ∧ s₁.kfree m.msg = s' ∧ v = v' := by simpa using hr
    exact ⟨rfl, .inr ⟨rfl, fun hc => absurd hc.1 (by omega)⟩⟩
  rw [if_neg hfit] at hr
  obtain ⟨⟨r₁, v₁⟩, hcopy, hr⟩ := Option.bind_eq_some_iff.mp hr
  by_cases hr₁ : r₁ = 0
  · subst hr₁
    by_cases hout : senderOut = 0
    · obtain ⟨rfl, rfl, rfl⟩ : m.size = r ∧ s₁.kfree m.msg = s' ∧ v₁ = v' := by
        simpa [hout] using hr
      exact ⟨rfl, .inl ⟨rfl, by omega, v₁, hcopy, .inl hout⟩⟩
    · simp only [ne_eq, not_true_eq_false, if_false, hout, not_false_eq_true, if_true] at hr
      obtain ⟨⟨r₂, v₂⟩, hsender, hr⟩ := Option.bind_eq_some_iff.mp hr
      by_cases hr₂ : r₂ = 0
      · subst hr₂
        obtain ⟨rfl, rfl, rfl⟩ : m.size = r ∧ s₁.kfree m.msg = s' ∧ v₂ = v' := by simpa using hr
        exact ⟨rfl, .inl ⟨rfl, by omega, v₁, hcopy, .inr ⟨v₂, hsender⟩⟩⟩
      · obtain ⟨rfl, rfl, rfl⟩ : 0 = r ∧ s₁.kfree m.msg = s' ∧ v₂ = v' := by simpa [hr₂] using hr
        refine ⟨rfl, .inr ⟨rfl, ?_⟩⟩
        rintro ⟨-, v₃, hcopy', h0 | ⟨v₄, hsender'⟩⟩
        · exact hout h0
        · obtain ⟨-, rfl⟩ := Prod.mk.inj (Option.some.inj (hcopy.symm.trans hcopy'))
          exact hr₂ (Prod.mk.inj (Option.some.inj (hsender.symm.trans hsender'))).1
  · obtain ⟨rfl, rfl, rfl⟩ : 0 = r ∧ s₁.kfree m.msg = s' ∧ v₁ = v' := by simpa [hr₁] using hr
    refine ⟨rfl, .inr ⟨rfl, ?_⟩⟩
    rintro ⟨-, v₂, hcopy', -⟩
    exact hr₁ (Prod.mk.inj (Option.some.inj (hcopy.symm.trans hcopy'))).1

/-- The other model of the call has how the copies end as a parameter. -/
theorem sysIpcPollAt_eq_sysIpcPoll
    (hr : s.sysIpcPollAt v uaddr capacity senderOut sender = some (r, s', v')) :
    ∃ writable senderWritable,
      s.sysIpcPoll capacity.toNat writable senderOut.toNat senderWritable = (r, s') := by
  by_cases h0 : s.inbox.count = 0
  · rw [sysIpcPollAt_empty h0] at hr
    obtain ⟨rfl, rfl, rfl⟩ : 0 = r ∧ s = s' ∧ v = v' := by simpa using hr
    refine ⟨true, true, ?_⟩
    rw [sysIpcPoll, kipcPoll_empty h0]
  · obtain ⟨rfl, ⟨rfl, hfits, -⟩ | ⟨rfl, -⟩⟩ := sysIpcPollAt_cases h0 hr
    · refine ⟨true, true, ?_⟩
      rw [sysIpcPoll, kipcPoll_some h0]
      simp [Nat.not_lt.mpr hfits]
    · refine ⟨false, true, ?_⟩
      rw [sysIpcPoll, kipcPoll_some h0]
      simp

end Threads

/-! ## Characters -/

end Nyvela
