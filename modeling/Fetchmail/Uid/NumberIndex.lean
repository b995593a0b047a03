import Fetchmail.Uid.Database

/-!
# The Index by Number Is a Map

What `find_uid_by_num` returns, over every run of the operations on the index: the record that was
last set for the number since the last `reset_uid_db_nums`. A reset does nothing while the highest
number is the only one in the index, and with the highest `unsigned` as highest number `end_value`
wraps around.
-/

namespace Fetchmail.Uid

/-- The operations on the index by number; records are known by their positions. -/
inductive IndexOp where
  /-- `set_uid_db_num_pos_0` -/
  | setPos0 (num : Nat)
  /-- `set_uid_db_num` -/
  | setNum (p num : Nat)
  /-- `reset_uid_db_nums` -/
  | reset
  deriving DecidableEq, Repr

/-- What the index is for: the highest number, and the record last set for each. -/
structure NumMap where
  count : Nat
  last : Nat → Option Nat

namespace NumMap

/-- Nothing is set. -/
def Empty (m : NumMap) : Prop := ∀ n, m.last n = none

/-- What an operation does to the map. -/
def apply (m : NumMap) : IndexOp → NumMap
  | .setPos0 num => { m with count := num }
  | .setNum p num => { m with last := fun n => if n = num then some p else m.last n }
  | .reset => { m with last := fun _ => none }

/-- The highest number is an `unsigned`, and changed while the index is empty only; the others are
between one and the highest. -/
def Allows (m : NumMap) : IndexOp → Prop
  | .setPos0 num => num < 2 ^ 32 ∧ m.Empty
  | .setNum _ num => 1 ≤ num ∧ num ≤ m.count
  | .reset => True

/-- The operations that go wrong: a reset when the highest number is the only one that is set, and
the highest `unsigned` as highest number. -/
def Slips (m : NumMap) : IndexOp → Prop
  | .setPos0 num => num = 2 ^ 32 - 1
  | .setNum _ _ => False
  | .reset => m.last m.count ≠ none ∧ ∀ n, n ≠ m.count → m.last n = none

end NumMap

/-- What an operation does to the index. -/
def Db.apply (db : Db) : IndexOp → Db
  | .setPos0 num => db.setUidDbNumPos0 num
  | .setNum p num => db.setUidDbNum p num
  | .reset => db.resetUidDbNums

/-- The database after a run. -/
def indexAfter (db : Db) (ops : List IndexOp) : Db := ops.foldl Db.apply db

/-- The map after a run; no number has been used before. -/
def mapAfter (ops : List IndexOp) : NumMap := ops.foldl NumMap.apply ⟨0, fun _ => none⟩

/-- Runs of allowed operations. -/
inductive Lawful : List IndexOp → Prop
  | nil : Lawful []
  | snoc {ops : List IndexOp} {op : IndexOp} : Lawful ops → (mapAfter ops).Allows op →
      Lawful (ops ++ [op])

/-- A search for any number finds what was last set, and reads in the array only. A search changes
nothing, so that those of a run are these. -/
def Agrees (db : Db) (m : NumMap) : Prop :=
  ∀ n, 1 ≤ n → n ≤ m.count → db.findInBounds n = true ∧ db.findUidByNum n = m.last n

/-! ## The steps -/

/-- No highest number was set so far. -/
structure Fresh (db : Db) (m : NumMap) : Prop where
  numNdx : db.numNdx = Db.initUidDb.numNdx
  count : m.count = 0
  empty : m.Empty

/-- The index and the map agree, and the array goes down to the lowest number that is set. -/
structure Indexed (db : Db) (m : NumMap) : Prop where
  range : m.count < 2 ^ 32 - 1
  numbered : db.Numbered m.count
  domain : ∀ n, m.last n ≠ none → 1 ≤ n ∧ n ≤ m.count
  found : ∀ n ≤ m.count, db.findUidByNum n = m.last n
  lowest : db.numNdx.endValue ≤ m.count → m.last db.numNdx.endValue ≠ none

/-- The invariant of the runs in which nothing goes wrong. -/
def IndexInv (db : Db) (m : NumMap) : Prop := Fresh db m ∨ Indexed db m

variable {db db₀ : Db} {m : NumMap} {op : IndexOp} {ops : List IndexOp} {c n p : Nat}

theorem Indexed.endValue_le (h : Indexed db m) (hn : m.last n ≠ none) :
    db.numNdx.endValue ≤ n := by
  rw [← h.found n (h.domain n hn).2, Db.findUidByNum] at hn
  by_contra hlt
  exact hn (if_neg hlt)

theorem IndexInv.agrees (h : IndexInv db m) : Agrees db m := by
  intro n hpos hn
  rcases h with h | h
  · rw [h.count] at hn
    omega
  · exact ⟨Db.findInBounds_of_le h.numbered h.range hn, h.found n hn⟩

/-- An empty index has no more than one place. -/
theorem IndexInv.atRest (h : IndexInv db m) (hempty : m.Empty) : db.AtRest := by
  rcases h with h | h
  · rw [Db.AtRest, h.numNdx]
    exact Nat.zero_le 1
  · exact h.numbered.stale (Nat.not_le.mp fun hle => h.lowest hle (hempty _))

theorem IndexInv.setPos0 (h : IndexInv db m) (hempty : m.Empty) (hc : c < 2 ^ 32 - 1) :
    Indexed (db.apply (.setPos0 c)) (m.apply (.setPos0 c)) where
  range := hc
  numbered := Db.numbered_setUidDbNumPos0 (h.atRest hempty) hc
  domain := fun n hn => absurd (hempty n) hn
  found := fun n hn => (Db.findUidByNum_setUidDbNumPos0 hc hn).trans (hempty n).symm
  lowest := by
    show (c + 1) % 2 ^ 32 ≤ c → _
    omega

theorem Indexed.setNum (h : Indexed db m) (hpos : 1 ≤ n) (hn : n ≤ m.count) :
    Indexed (db.apply (.setNum p n)) (m.apply (.setNum p n)) where
  range := h.range
  numbered := h.numbered.setUidDbNum h.range hn
  domain := by
    intro k hk
    by_cases heq : k = n
    · subst heq
      exact ⟨hpos, hn⟩
    · exact h.domain k (by simpa [NumMap.apply, heq] using hk)
  found := by
    intro k hk
    rw [Db.apply, Db.findUidByNum_setUidDbNum h.numbered h.range hn hk, h.found k hk]
    rfl
  lowest := by
    intro hle
    obtain ⟨-, hend, -⟩ := Db.growTo_spec h.numbered h.range hn
    have hend' : (db.apply (.setNum p n)).numNdx.endValue = min n db.numNdx.endValue := hend
    rw [hend']
    show (if min n db.numNdx.endValue = n then some p else m.last (min n db.numNdx.endValue)) ≠ none
    split
    · exact Option.some_ne_none p
    · next hne =>
      have hmin : min n db.numNdx.endValue = db.numNdx.endValue := by omega
      rw [hmin]
      exact h.lowest (by omega)

theorem Indexed.reset (h : Indexed db m) (hslip : ¬ m.Slips .reset) :
    Indexed (db.apply .reset) (m.apply .reset) := by
  by_cases hlt : db.numNdx.endValue < db.numNdx.pos0Value
  · have hwrap : (m.count + 1) % 2 ^ 32 = m.count + 1 := Nat.mod_eq_of_lt (by have := h.range; omega)
    have hndx : (db.apply .reset).numNdx = ⟨[], m.count, m.count + 1⟩ := by
      rw [Db.apply, Db.resetUidDbNums, if_pos hlt]
      show NumNdx.mk [] db.numNdx.pos0Value ((db.numNdx.pos0Value + 1) % 2 ^ 32) = _
      rw [h.numbered.pos0Value, hwrap]
    refine ⟨h.range, ⟨?_, ?_, ?_, ?_⟩, fun n hn => absurd rfl hn, fun n hn => ?_, ?_⟩
    · rw [hndx]
      rfl
    · rw [hndx]
      exact Nat.le_refl _
    · rw [hndx]
      intro hle
      exact absurd hle (Nat.not_succ_le_self _)
    · rw [hndx]
      exact fun _ => Nat.zero_le 1
    · rw [Db.findUidByNum, hndx]
      exact if_neg (Nat.not_le.mpr (Nat.lt_succ_of_le hn))
    · rw [hndx]
      intro hle
      exact absurd hle (Nat.not_succ_le_self _)
  · -- nothing is done, and nothing is set: only the highest number could be
    have hpos0 := h.numbered.pos0Value
    have honly : ∀ n, n ≠ m.count → m.last n = none := by
      intro n hne
      by_contra hn
      have hle := h.endValue_le hn
      have hdomain := h.domain n hn
      omega
    have hnone : m.last m.count = none := by
      by_contra hne
      exact hslip ⟨hne, honly⟩
    have hempty : m.Empty := fun n => by
      by_cases heq : n = m.count
      · exact heq ▸ hnone
      · exact honly n heq
    have hmap : m.apply .reset = m := by
      show { m with last := fun _ => none } = m
      have hlast : m.last = fun _ => none := funext hempty
      rw [← hlast]
    rw [hmap, Db.apply, Db.resetUidDbNums, if_neg hlt]
    exact h

/-- **What one operation keeps.** -/
theorem IndexInv.step (h : IndexInv db m) (hallow : m.Allows op) (hslip : ¬ m.Slips op) :
    IndexInv (db.apply op) (m.apply op) := by
  cases op with
  | setPos0 c =>
    obtain ⟨hc, hempty⟩ := hallow
    have hne : c ≠ 2 ^ 32 - 1 := hslip
    exact .inr (h.setPos0 hempty (by omega))
  | setNum p n =>
    obtain ⟨hpos, hn⟩ := hallow
    rcases h with h | h
    · rw [h.count] at hn
      omega
    · exact .inr (h.setNum hpos hn)
  | reset =>
    rcases h with h | h
    · refine .inl ⟨?_, h.count, fun _ => rfl⟩
      have hlt : ¬ db.numNdx.endValue < db.numNdx.pos0Value := by
        rw [h.numNdx]
        decide
      rw [Db.apply, Db.resetUidDbNums, if_neg hlt]
      exact h.numNdx
    · exact .inr (h.reset hslip)

/-- Where an operation goes wrong, a search does. -/
theorem IndexInv.not_agrees (h : IndexInv db m) (hallow : m.Allows op) (hslip : m.Slips op) :
    ¬ Agrees (db.apply op) (m.apply op) := by
  intro hagrees
  cases op with
  | setPos0 c =>
    obtain ⟨-, hempty⟩ := hallow
    obtain rfl : c = 2 ^ 32 - 1 := hslip
    have hrest : db.numNdx.records.length ≤ 1 := h.atRest hempty
    have hin := (hagrees 1 (Nat.le_refl 1) (by show 1 ≤ 2 ^ 32 - 1; omega)).1
    rw [Db.findInBounds, Bool.or_eq_true, decide_eq_true_eq, decide_eq_true_eq] at hin
    -- the end is zero, and the place far behind the array
    have hplace : 1 < (2 ^ 32 - 1 + 1) % 2 ^ 32 ∨
        (2 ^ 32 - 1 + 2 ^ 32 - 1) % 2 ^ 32 < db.numNdx.records.length := hin
    omega
  | setNum p n => exact hslip
  | reset =>
    obtain ⟨hset, honly⟩ := hslip
    rcases h with h | h
    · exact hset (h.empty _)
    · -- the array has one place, and nothing is done
      have hle := h.endValue_le hset
      have hend : db.numNdx.endValue = m.count := by
        by_contra hne
        exact h.lowest hle (honly _ hne)
      have hsame : db.apply .reset = db := by
        rw [Db.apply, Db.resetUidDbNums, if_neg (by rw [hend, h.numbered.pos0Value]; omega)]
      have hfound := (hagrees m.count (h.domain _ hset).1 (Nat.le_refl _)).2
      rw [hsame, h.found m.count (Nat.le_refl _)] at hfound
      exact hset hfound

/-! ## The runs -/

theorem indexAfter_snoc (db : Db) (ops : List IndexOp) (op : IndexOp) :
    indexAfter db (ops ++ [op]) = (indexAfter db ops).apply op := by
  rw [indexAfter, List.foldl_append]
  rfl

theorem mapAfter_snoc (ops : List IndexOp) (op : IndexOp) :
    mapAfter (ops ++ [op]) = (mapAfter ops).apply op := by
  rw [mapAfter, List.foldl_append]
  rfl

theorem indexInv_nil (hfresh : db.numNdx = Db.initUidDb.numNdx) :
    IndexInv (indexAfter db []) (mapAfter []) := .inl ⟨hfresh, rfl, fun _ => rfl⟩

/-- In a run in which no operation goes wrong, no search does. -/
theorem Lawful.agrees (hops : Lawful ops) (hfresh : db.numNdx = Db.initUidDb.numNdx)
    (hslips : ∀ pre op, pre ++ [op] <+: ops → ¬ (mapAfter pre).Slips op) :
    IndexInv (indexAfter db ops) (mapAfter ops) ∧
      ∀ pre, pre <+: ops → Agrees (indexAfter db pre) (mapAfter pre) := by
  induction hops with
  | nil =>
    refine ⟨indexInv_nil hfresh, fun pre hpre => ?_⟩
    rw [List.prefix_nil.mp hpre]
    exact (indexInv_nil hfresh).agrees
  | @snoc ops op _ hallow ih =>
    obtain ⟨hinv, hagrees⟩ := ih fun pre op' hpre =>
      hslips pre op' (hpre.trans (List.prefix_append ops [op]))
    have hnext : IndexInv (indexAfter db (ops ++ [op])) (mapAfter (ops ++ [op])) := by
      rw [indexAfter_snoc, mapAfter_snoc]
      exact hinv.step hallow (hslips ops op (List.prefix_refl _))
    refine ⟨hnext, fun pre hpre => ?_⟩
    rcases List.prefix_concat_iff.mp hpre with rfl | hpre
    · exact hnext.agrees
    · exact hagrees pre hpre

/-- In a run in which no search goes wrong, no operation does. -/
theorem Lawful.slipFree (hops : Lawful ops) (hfresh : db.numNdx = Db.initUidDb.numNdx)
    (hagrees : ∀ pre, pre <+: ops → Agrees (indexAfter db pre) (mapAfter pre)) :
    IndexInv (indexAfter db ops) (mapAfter ops) ∧
      ∀ pre op, pre ++ [op] <+: ops → ¬ (mapAfter pre).Slips op := by
  induction hops with
  | nil => exact ⟨indexInv_nil hfresh, fun pre op hpre => by simp at hpre⟩
  | @snoc ops op _ hallow ih =>
    obtain ⟨hinv, hslips⟩ := ih fun pre hpre =>
      hagrees pre (hpre.trans (List.prefix_append ops [op]))
    have hslip : ¬ (mapAfter ops).Slips op := by
      intro hslip
      have hlast := hagrees _ (List.prefix_refl (ops ++ [op]))
      rw [indexAfter_snoc, mapAfter_snoc] at hlast
      exact hinv.not_agrees hallow hslip hlast
    refine ⟨?_, fun pre op' hpre => ?_⟩
    · rw [indexAfter_snoc, mapAfter_snoc]
      exact hinv.step hallow hslip
    · rcases List.prefix_concat_iff.mp hpre with heq | hpre
      · obtain ⟨rfl, hop⟩ := List.append_inj' heq rfl
        obtain rfl := (List.cons.inj hop).1
        exact hslip
      · exact hslips pre op' hpre

/-- **The index by number is a map, in every state of a run, just if no reset of the run came when
the highest number was the only one in it** and no highest number was the highest `unsigned`. -/
theorem numberIndex_exact (db : Db) (hfresh : db.numNdx = Db.initUidDb.numNdx)
    (ops : List IndexOp) (hops : Lawful ops) :
    (∀ pre, pre <+: ops → Agrees (indexAfter db pre) (mapAfter pre)) ↔
      ∀ pre op, pre ++ [op] <+: ops → ¬ (mapAfter pre).Slips op :=
  ⟨fun hagrees => (hops.slipFree hfresh hagrees).2, fun hslips => (hops.agrees hfresh hslips).2⟩

/-- One message, which is recorded, and a reset. -/
def recordedAlone : List IndexOp := [.setPos0 1, .setNum 0 1, .reset]

theorem lawful_recordedAlone : Lawful recordedAlone := by
  have hpos0 : Lawful [.setPos0 1] := @Lawful.snoc [] (.setPos0 1) .nil ⟨by decide, fun _ => rfl⟩
  have hset : Lawful [.setPos0 1, .setNum 0 1] :=
    @Lawful.snoc [.setPos0 1] (.setNum 0 1) hpos0 ⟨by decide, by decide⟩
  exact @Lawful.snoc [.setPos0 1, .setNum 0 1] .reset hset trivial

/-- That run, with a database that has just been set up. -/
theorem numberIndex_exact_alone :
    (∀ pre, pre <+: recordedAlone → Agrees (indexAfter Db.initUidDb pre) (mapAfter pre)) ↔
      ∀ pre op, pre ++ [op] <+: recordedAlone → ¬ (mapAfter pre).Slips op :=
  numberIndex_exact Db.initUidDb rfl recordedAlone lawful_recordedAlone

/-- The record is found after the reset. -/
theorem numberIndex_alone : Lawful recordedAlone ∧
    ¬ Agrees (indexAfter Db.initUidDb recordedAlone) (mapAfter recordedAlone) := by
  refine ⟨lawful_recordedAlone, fun hagrees => ?_⟩
  have hfound := (hagrees 1 (Nat.le_refl 1) (Nat.le_refl 1)).2
  exact absurd hfound (by decide)

end Fetchmail.Uid
