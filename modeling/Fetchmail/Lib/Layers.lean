import Mathlib.Tactic.Common

/-!
# Layered Settings

Values that may be unset, in layers of falling precedence. An unset value is marked by a
value of the type itself, a sentinel, so that a value that a user gives can be mistaken for
none: `firstSet` is what a program finds that merges the layers, `given` is what the user
means. They agree where no given value is encoded by the sentinel, and `firstSet_encode_iff`
says exactly when else.
-/

namespace Fetchmail.Lib.Layers

variable {α V : Type*}

/-! ## Merging -/

section

variable [DecidableEq α] (unset : α)

/-- Take the lower layer where the upper one is unset. -/
def fill (upper lower : α) : α := if upper = unset then lower else upper

/-- The first value that is set. -/
def firstSet : List α → α
  | [] => unset
  | a :: layers => fill unset a (firstSet layers)

@[simp] theorem fill_unset (lower : α) : fill unset unset lower = lower := if_pos rfl

theorem fill_of_ne {upper : α} (h : upper ≠ unset) (lower : α) : fill unset upper lower = upper :=
  if_neg h

/-- The order in which layers are merged does not matter. -/
theorem fill_assoc (a b c : α) :
    fill unset (fill unset a b) c = fill unset a (fill unset b c) := by
  by_cases h : a = unset
  · rw [h, fill_unset, fill_unset]
  · rw [fill_of_ne unset h, fill_of_ne unset h, fill_of_ne unset h]

theorem firstSet_eq_unset {layers : List α} (h : ∀ a ∈ layers, a = unset) :
    firstSet unset layers = unset := by
  induction layers with
  | nil => rfl
  | cons a layers ih =>
    rw [firstSet, h a List.mem_cons_self, fill_unset]
    exact ih fun b hb => h b (List.mem_cons_of_mem a hb)

theorem firstSet_eq_unset_iff {layers : List α} :
    firstSet unset layers = unset ↔ ∀ a ∈ layers, a = unset := by
  refine ⟨fun h => ?_, firstSet_eq_unset unset⟩
  induction layers with
  | nil => simp
  | cons a layers ih =>
    by_cases ha : a = unset
    · rw [firstSet, ha, fill_unset] at h
      simpa [ha] using ih h
    · rw [firstSet, fill_of_ne unset ha] at h
      exact absurd h ha

end

/-! ## What is given -/

/-- The first value that is given. -/
def given : List (Option V) → Option V
  | [] => none
  | some v :: _ => some v
  | none :: layers => given layers

@[simp] theorem given_nil : given ([] : List (Option V)) = none := rfl
@[simp] theorem given_some (v : V) (layers : List (Option V)) :
    given (some v :: layers) = some v := rfl
@[simp] theorem given_none (layers : List (Option V)) : given (none :: layers) = given layers := rfl

/-- How a layer is represented. -/
def encode (unset : α) (enc : V → α) (v : Option V) : α := (v.map enc).getD unset

@[simp] theorem encode_none (unset : α) (enc : V → α) : encode unset enc none = unset := rfl
@[simp] theorem encode_some (unset : α) (enc : V → α) (v : V) :
    encode unset enc (some v) = enc v := rfl

section

variable (unset : α) (enc : V → α) (builtin : α)

/-- The value that is given first can be told from none, or there is nothing below it. -/
def Stands : List (Option V) → Prop
  | [] => True
  | none :: layers => Stands layers
  | some v :: layers =>
    enc v ≠ unset ∨ (∀ w, some w ∈ layers → enc w = unset) ∧ builtin = unset

/-- Where no value is encoded by the sentinel, all is well. -/
theorem stands_of_ne {layers : List (Option V)} (h : ∀ v, some v ∈ layers → enc v ≠ unset) :
    Stands unset enc builtin layers := by
  induction layers with
  | nil => trivial
  | cons layer layers ih =>
    cases layer with
    | none => exact ih fun v hv => h v (List.mem_cons_of_mem _ hv)
    | some v => exact .inl (h v List.mem_cons_self)

variable [DecidableEq α]

/-- The merge finds what is given, if and only if that stands. -/
theorem firstSet_encode_iff (layers : List (Option V)) :
    firstSet unset (layers.map (encode unset enc) ++ [builtin]) =
        ((given layers).map enc).getD builtin ↔ Stands unset enc builtin layers := by
  induction layers with
  | nil =>
    simp only [List.map_nil, List.nil_append, firstSet, given_nil, Stands, iff_true]
    by_cases h : builtin = unset
    · simp [h]
    · exact fill_of_ne unset h unset
  | cons layer layers ih =>
    cases layer with
    -- nothing is given here, so the layers below decide
    | none =>
      rw [List.map_cons, List.cons_append, firstSet, encode_none, fill_unset, given_none]
      exact ih
    | some v =>
      rw [List.map_cons, List.cons_append, firstSet, encode_some, given_some, Stands]
      by_cases h : enc v = unset
      · -- the value is passed over
        -- it stands only if all that is below reads as unset, too
        have hbelow : (∀ a ∈ layers.map (encode unset enc) ++ [builtin], a = unset) ↔
            (∀ w, some w ∈ layers → enc w = unset) ∧ builtin = unset := by
          constructor
          · intro hall
            refine ⟨fun w hw => hall (enc w) ?_, hall builtin (by simp)⟩
            exact List.mem_append_left _ (List.mem_map.mpr ⟨some w, hw, rfl⟩)
          · rintro ⟨hlayers, hbuiltin⟩ a ha
            rcases List.mem_append.mp ha with ha | ha
            · obtain ⟨w, hw, rfl⟩ := List.mem_map.mp ha
              cases w with
              | none => rfl
              | some w => exact hlayers w hw
            · rw [List.mem_singleton.mp ha, hbuiltin]
        simp only [h, fill_unset, Option.map_some, Option.getD_some, ne_eq, not_true_eq_false,
          false_or]
        rw [firstSet_eq_unset_iff, hbelow]
      · simp [fill_of_ne unset h, h]

theorem firstSet_encode {layers : List (Option V)}
    (h : ∀ v, some v ∈ layers → enc v ≠ unset) :
    firstSet unset (layers.map (encode unset enc) ++ [builtin]) =
      ((given layers).map enc).getD builtin :=
  (firstSet_encode_iff unset enc builtin layers).mpr (stands_of_ne unset enc builtin h)

end

end Fetchmail.Lib.Layers
