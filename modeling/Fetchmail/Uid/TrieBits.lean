import Mathlib.Data.List.GetD
import Mathlib.Data.Nat.Bitwise
import Fetchmail.Lib.Patricia
import Fetchmail.Uid.PatriciaTrie

/-!
# UIDs as Keys of the Search Tree

The functions of `uid_db.c` that look at single bits, as facts about UIDs as sequences of
bits: the bits of their bytes, from the lowest on, and zeros behind their end.
-/

namespace Fetchmail.Uid

open Fetchmail.Lib

/-- The bits of a UID. -/
def idBits (id : Bytes) : Bits := fun j => (Bytes.charAt id (j / 8)).toNat.testBit (j % 8)

theorem byteAt_eq (id : Bytes) (ofs : Nat) : byteAt id ofs = (Bytes.charAt id ofs).toNat := by
  unfold byteAt
  split
  · rfl
  · next h =>
    rw [Bytes.charAt, List.getD_eq_default _ _ (by omega)]
    rfl

theorem bitOfs_eq (i : Nat) : bitOfs i = i / 8 := Nat.shiftRight_eq_div_pow i 3

theorem bitMask_eq (i : Nat) : bitMask i = 2 ^ (i % 8) := by
  have hand : i &&& 7 = i % 8 := Nat.and_two_pow_sub_one_eq_mod i 3
  rw [bitMask, hand, Nat.one_shiftLeft]

/-- A mask reads a bit. -/
theorem and_bitMask (v i : Nat) : decide (v &&& bitMask i ≠ 0) = v.testBit (i % 8) := by
  rw [bitMask_eq, Nat.and_two_pow]
  cases v.testBit (i % 8) <;> simp

theorem bitSet_eq (i : Nat) (id : Bytes) : bitSet i id = idBits id i := by
  unfold bitSet idBits
  rw [bitOfs_eq]
  split
  · next h =>
    rw [Bytes.charAt, List.getD_eq_default _ _ h]
    exact (Nat.zero_testBit _).symm
  · exact and_bitMask _ i

/-- The variables of a loop hold the byte at the offset. -/
def Loaded.Valid (loaded : Loaded) (id : Bytes) : Prop :=
  ∀ ofs v, loaded = some (ofs, v) → v = byteAt id ofs

theorem Loaded.Valid.load {loaded : Loaded} {id : Bytes} (h : loaded.Valid id) (ofs : Nat) :
    loaded.load id ofs = byteAt id ofs := by
  rcases loaded with _ | ⟨ofs', v⟩
  · rfl
  · simp only [Loaded.load]
    split
    · rfl
    · next heq =>
      obtain rfl := not_ne_iff.mp heq
      exact h _ _ rfl

/-- The edge that the loops take. -/
theorem edge_eq (id : Bytes) (i : Nat) :
    decide (byteAt id (bitOfs i) &&& bitMask i ≠ 0) = idBits id i := by
  rw [and_bitMask, byteAt_eq, bitOfs_eq]
  rfl

/-! ## The first bit that differs -/

theorem firstSetBitInChar_spec : ∀ v < 256, v ≠ 0 → firstSetBitInChar v < 8 ∧
    v.testBit (firstSetBitInChar v) = true ∧
      ∀ j < firstSetBitInChar v, v.testBit j = false := by
  decide +kernel

/-- From the first byte that differs. -/
theorem firstDiff_of_byte {id₀ id₁ : Bytes} {ofs : Nat}
    (hbefore : ∀ j < ofs, Bytes.charAt id₀ j = Bytes.charAt id₁ j)
    (hne : Bytes.charAt id₀ ofs ≠ Bytes.charAt id₁ ofs) :
    Patricia.FirstDiff (idBits id₀) (idBits id₁) (firstSetBitInChar
      ((Bytes.charAt id₀ ofs).toNat ^^^ (Bytes.charAt id₁ ofs).toNat) + ofs * 8) := by
  have hlt : (Bytes.charAt id₀ ofs).toNat ^^^ (Bytes.charAt id₁ ofs).toNat < 256 :=
    Nat.xor_lt_two_pow (n := 8) (UInt8.toNat_lt _) (UInt8.toNat_lt _)
  have hxor : (Bytes.charAt id₀ ofs).toNat ^^^ (Bytes.charAt id₁ ofs).toNat ≠ 0 := by
    rw [Ne, Nat.xor_eq_zero_iff]
    exact fun heq => hne (UInt8.toNat_inj.mp heq)
  obtain ⟨h8, hset, hclear⟩ := firstSetBitInChar_spec _ hlt hxor
  generalize firstSetBitInChar _ = d at *
  rw [Nat.testBit_xor] at hset
  constructor
  · intro j hj
    unfold idBits
    rcases Nat.lt_or_ge (j / 8) ofs with hlt | hge
    · rw [hbefore _ hlt]
    · -- in the byte that differs
      have hbyte : j / 8 = ofs := by omega
      have hbit := hclear (j % 8) (by omega)
      rw [Nat.testBit_xor] at hbit
      rw [hbyte]
      simpa using hbit
  · have hdiv : (d + ofs * 8) / 8 = ofs := by omega
    have hmod : (d + ofs * 8) % 8 = d := by omega
    unfold idBits
    rw [hdiv, hmod]
    simpa using hset

/-- A UID as it is inserted. -/
def IsId (id : Bytes) : Prop := id ≠ [] ∧ Bytes.nul ∉ id

theorem charAt_mem {id : Bytes} {i : Nat} (h : i < id.length) : Bytes.charAt id i ∈ id := by
  rw [Bytes.charAt, List.getD_eq_getElem _ _ h]
  exact List.getElem_mem h

theorem IsId.charAt_ne {id : Bytes} (h : IsId id) {i : Nat} (hi : i < id.length) :
    Bytes.charAt id i ≠ Bytes.nul := fun heq => h.2 (heq ▸ charAt_mem hi)

theorem charAt_of_length_le {id : Bytes} {i : Nat} (h : id.length ≤ i) :
    Bytes.charAt id i = Bytes.nul := List.getD_eq_default _ _ h

/-- The loop of `find_first_diff_bit` stops at the first byte that differs, or at the end. -/
theorem diffLoop_spec (id₀ id₁ : Bytes) (max fuel ofs : Nat) (hofs : ofs < max)
    (hfuel : max ≤ ofs + fuel) (hbefore : ∀ j < ofs, Bytes.charAt id₀ j = Bytes.charAt id₁ j) :
    (∀ j < (diffLoop id₀ id₁ max fuel ofs).1, Bytes.charAt id₀ j = Bytes.charAt id₁ j) ∧
      ((diffLoop id₀ id₁ max fuel ofs).2 = (Bytes.charAt id₀ (diffLoop id₀ id₁ max fuel ofs).1).toNat ^^^
          (Bytes.charAt id₁ (diffLoop id₀ id₁ max fuel ofs).1).toNat ∧
        (diffLoop id₀ id₁ max fuel ofs).2 ≠ 0 ∨
      (diffLoop id₀ id₁ max fuel ofs).2 = 0 ∧ (diffLoop id₀ id₁ max fuel ofs).1 = max) := by
  induction fuel generalizing ofs with
  | zero => omega
  | succ fuel ih =>
    simp only [diffLoop]
    split
    · next hv => exact ⟨hbefore, .inl ⟨rfl, hv⟩⟩
    · next hv =>
      have heq : Bytes.charAt id₀ ofs = Bytes.charAt id₁ ofs :=
        UInt8.toNat_inj.mp (Nat.xor_eq_zero_iff.mp (not_ne_iff.mp hv))
      have hnext : ∀ j < ofs + 1, Bytes.charAt id₀ j = Bytes.charAt id₁ j := by
        intro j hj
        rcases Nat.lt_succ_iff_lt_or_eq.mp hj with hlt | rfl
        · exact hbefore j hlt
        · exact heq
      split
      · next hmore => exact ih (ofs + 1) hmore (by omega) hnext
      · next hend => exact ⟨hnext, .inr ⟨rfl, by omega⟩⟩

/-- `find_first_diff_bit` finds no bit in two UIDs that are the same, and the first bit in two
that are not. -/
theorem findFirstDiffBit_spec {id₀ id₁ : Bytes} (h₀ : IsId id₀) (h₁ : IsId id₁) :
    (findFirstDiffBit id₀ id₁ < 0 ∧ id₀ = id₁) ∨
      (0 ≤ findFirstDiffBit id₀ id₁ ∧
        Patricia.FirstDiff (idBits id₀) (idBits id₁) (findFirstDiffBit id₀ id₁).toNat) := by
  have hpos₀ := List.length_pos_iff.mpr h₀.1
  have hpos₁ := List.length_pos_iff.mpr h₁.1
  have hmax : (if id₁.length < id₀.length then id₁.length else id₀.length) =
      min id₀.length id₁.length := by
    split <;> omega
  obtain ⟨hbefore, hend⟩ := diffLoop_spec id₀ id₁ (min id₀.length id₁.length)
    (min id₀.length id₁.length + 1) 0 (by omega) (by omega) (by simp)
  unfold findFirstDiffBit
  simp only [hmax]
  generalize diffLoop id₀ id₁ _ _ 0 = r at *
  obtain ⟨ofs, v⟩ := r
  simp only at hbefore hend ⊢
  rcases hend with ⟨hv, hne⟩ | ⟨rfl, rfl⟩
  -- the loop has come to a byte that is different
  · right
    rw [if_pos hne]
    refine ⟨Int.natCast_nonneg _, ?_⟩
    rw [Int.toNat_natCast, hv]
    refine firstDiff_of_byte hbefore fun heq => hne ?_
    rw [hv, heq, Nat.xor_self]
  · rw [if_neg (by simp)]
    by_cases hlen : id₀.length = id₁.length
    -- the loop has come to the end of both
    · left
      rw [if_pos hlen]
      refine ⟨by decide, List.ext_getElem hlen fun i hi₀ hi₁ => ?_⟩
      have hbyte := hbefore i (by omega)
      rwa [Bytes.charAt, Bytes.charAt, List.getD_eq_getElem _ _ hi₀,
        List.getD_eq_getElem _ _ hi₁] at hbyte
    · -- one is a prefix of the other, and goes on with something
      right
      rw [if_neg hlen]
      refine ⟨Int.natCast_nonneg _, ?_⟩
      rw [Int.toNat_natCast]
      -- the shorter one ends in a NUL there, so the difference is the other's byte
      have hnul : Bytes.nul.toNat = 0 := rfl
      by_cases hlt : id₁.length < id₀.length
      · have hmin : min id₀.length id₁.length = id₁.length := by omega
        rw [if_pos hlt, hmin]
        rw [hmin] at hbefore
        have hshort := charAt_of_length_le (Nat.le_refl id₁.length)
        have hdiff := firstDiff_of_byte hbefore (by rw [hshort]; exact h₀.charAt_ne hlt)
        rwa [hshort, hnul, Nat.xor_zero] at hdiff
      · have hlt' : id₀.length < id₁.length := by omega
        have hmin : min id₀.length id₁.length = id₀.length := by omega
        rw [if_neg hlt, hmin]
        rw [hmin] at hbefore
        have hshort := charAt_of_length_le (Nat.le_refl id₀.length)
        have hdiff := firstDiff_of_byte hbefore (by rw [hshort]; exact (h₁.charAt_ne hlt').symm)
        rwa [hshort, hnul, Nat.zero_xor] at hdiff

/-- UIDs with the same bits are the same. -/
theorem idBits_inj {id₀ id₁ : Bytes} (h₀ : IsId id₀) (h₁ : IsId id₁)
    (h : idBits id₀ = idBits id₁) : id₀ = id₁ := by
  rcases findFirstDiffBit_spec h₀ h₁ with ⟨-, heq⟩ | ⟨-, hdiff⟩
  · exact heq
  · exact absurd (congrFun h _) hdiff.2

/-- The first bit that is set, where there is nothing to compare with. -/
theorem firstDiff_nil {id : Bytes} (h : IsId id) : Patricia.FirstDiff (idBits id) (idBits [])
    (firstSetBitInChar (Bytes.charAt id 0).toNat) := by
  have hpos := List.length_pos_iff.mpr h.1
  have hnil : Bytes.charAt [] 0 = Bytes.nul := rfl
  have hdiff := @firstDiff_of_byte id [] 0 (by simp)
    (by rw [hnil]; exact h.charAt_ne hpos)
  have hnul : Bytes.nul.toNat = 0 := rfl
  rwa [hnil, hnul, Nat.xor_zero, Nat.zero_mul, Nat.add_zero] at hdiff

end Fetchmail.Uid
