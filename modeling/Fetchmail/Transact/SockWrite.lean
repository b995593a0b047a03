import Fetchmail.Transact.Socket

/-!
# Writing to a Socket

`SockWrite` of `socket.c`, which writes again as long as the system takes only a part. What the
peer gets is the beginning of the buffer, and all of it if the result is not `-1`.
-/

namespace Fetchmail.Transact

open Fetchmail.Lib

/-- The far end of a socket: what has gone to it, and what the system says to each write, with the
number of writes so far. -/
structure Peer where
  got : Bytes
  accepts : Nat → Int
  writes : Nat

/-- `fm_write(sock, buf, len)`: the return value, which is at most `len`. -/
def Peer.write (buf : Bytes) (p : Peer) : Int × Peer :=
  let n := min (p.accepts p.writes) buf.length
  (n, { p with got := p.got ++ buf.take n.toNat, writes := p.writes + 1 })

/-- The loop of `SockWrite`. A round that goes on has written something, so that as many rounds as
there are bytes are enough. -/
def sockWriteLoop : (fuel : Nat) → (buf : Bytes) → (wrlen : Nat) → Peer → Option Nat × Peer
  | 0, _, wrlen, p => (some wrlen, p)
  | fuel + 1, buf, wrlen, p =>
    if buf = [] then (some wrlen, p)
    else
      let written := p.write buf
      if written.1 ≤ 0 then (none, written.2)
      else sockWriteLoop fuel (buf.drop written.1.toNat) (wrlen + written.1.toNat) written.2

/-- `SockWrite`: the return value, or `none` for `-1`. -/
def Peer.sockWrite (buf : Bytes) (p : Peer) : Option Nat × Peer :=
  sockWriteLoop buf.length buf 0 p

theorem sockWriteLoop_spec {fuel : Nat} {buf : Bytes} (hfuel : buf.length ≤ fuel) (wrlen : Nat)
    (p : Peer) :
    ∃ k ≤ buf.length, (sockWriteLoop fuel buf wrlen p).2.got = p.got ++ buf.take k ∧
      (sockWriteLoop fuel buf wrlen p).2.accepts = p.accepts ∧
      ((sockWriteLoop fuel buf wrlen p).1 = some (wrlen + buf.length) ∧ k = buf.length ∨
        (sockWriteLoop fuel buf wrlen p).1 = none ∧ k < buf.length) := by
  induction fuel generalizing buf wrlen p with
  | zero =>
    have hnil : buf = [] := List.length_eq_zero_iff.mp (by omega)
    subst hnil
    exact ⟨0, Nat.le_refl 0, by simp [sockWriteLoop], rfl, Or.inl ⟨rfl, rfl⟩⟩
  | succ fuel ih =>
    rw [sockWriteLoop]
    by_cases hnil : buf = []
    · subst hnil
      exact ⟨0, Nat.le_refl 0, by simp, by simp, by simp⟩
    · rw [if_neg hnil]
      have hpos : 0 < buf.length := List.length_pos_iff.mpr hnil
      by_cases hfail : (p.write buf).1 ≤ 0
      · -- nothing is written by a write that fails
        have hzero : (p.write buf).1.toNat = 0 := Int.toNat_of_nonpos hfail
        simp only [if_pos hfail]
        refine ⟨0, Nat.zero_le _, ?_, rfl, Or.inr ⟨trivial, hpos⟩⟩
        have hgot : (p.write buf).2.got = p.got ++ buf.take (p.write buf).1.toNat := rfl
        rw [hgot, hzero]
      · simp only [if_neg hfail]
        have hle : (p.write buf).1 ≤ buf.length := Int.min_le_right _ _
        have hrest : (buf.drop (p.write buf).1.toNat).length ≤ fuel := by
          rw [List.length_drop]
          omega
        obtain ⟨k, hk, hgot, haccepts, hresult⟩ :=
          ih hrest (wrlen + (p.write buf).1.toNat) (p.write buf).2
        rw [List.length_drop] at hk hresult
        refine ⟨(p.write buf).1.toNat + k, by omega, ?_, haccepts, ?_⟩
        · have hfirst : (p.write buf).2.got = p.got ++ buf.take (p.write buf).1.toNat := rfl
          rw [hgot, hfirst, List.append_assoc, ← List.take_add]
        · rcases hresult with ⟨hsome, hfull⟩ | ⟨hnone, hshort⟩
          · refine Or.inl ⟨?_, by omega⟩
            rw [hsome]
            congr 1
            omega
          · exact Or.inr ⟨hnone, by omega⟩

/-- `SockWrite` passes on the beginning of the buffer, and returns its length exactly if that was
all of it; it does not change how the system answers. -/
theorem sockWrite_spec (buf : Bytes) (p : Peer) :
    ∃ k ≤ buf.length, (p.sockWrite buf).2.got = p.got ++ buf.take k ∧
      (p.sockWrite buf).2.accepts = p.accepts ∧
      ((p.sockWrite buf).1 = some buf.length ∧ k = buf.length ∨
        (p.sockWrite buf).1 = none ∧ k < buf.length) := by
  have h := sockWriteLoop_spec (Nat.le_refl buf.length) 0 p
  rwa [Nat.zero_add] at h

/-- A system that always takes something takes all. -/
theorem sockWrite_of_accepts (buf : Bytes) {p : Peer} (h : ∀ k, 0 < p.accepts k) :
    (p.sockWrite buf).1 = some buf.length ∧ (p.sockWrite buf).2.got = p.got ++ buf := by
  have hnever : ∀ (fuel : Nat) (buf : Bytes) (wrlen : Nat) (q : Peer), q.accepts = p.accepts →
      (sockWriteLoop fuel buf wrlen q).1 ≠ none := by
    intro fuel
    induction fuel with
    | zero => simp [sockWriteLoop]
    | succ fuel ih =>
      intro buf wrlen q hq
      rw [sockWriteLoop]
      by_cases hnil : buf = []
      · simp [hnil]
      · have hpos : 0 < buf.length := List.length_pos_iff.mpr hnil
        have htakes := h q.writes
        have hwrote : ¬(q.write buf).1 ≤ 0 := by
          simp only [Peer.write, hq]
          omega
        simp only [if_neg hnil, if_neg hwrote]
        exact ih _ _ _ hq
  obtain ⟨k, hk, hgot, -, ⟨hsome, hfull⟩ | ⟨hnone, -⟩⟩ := sockWrite_spec buf p
  · refine ⟨hsome, ?_⟩
    rw [hgot, hfull, List.take_length]
  · exact absurd hnone (hnever _ _ _ _ rfl)

end Fetchmail.Transact
