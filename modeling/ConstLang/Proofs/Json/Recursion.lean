/-
How deep the writer of JSON calls itself. `writeWithin` is the writer with a bound on the values
whose writing may be under way at once; it gives up where the bound is reached. `callDepth` is the
least bound that is enough, `writeWithin_eq`, and it follows the nesting of the value: a number is
one call more than the arrays and structs around it, and an empty one of these is none more.
-/
import ConstLang.Json

namespace ConstLang

namespace Json

mutual

/-- The number of values whose writing is under way at once, at most. -/
def callDepth : Value → Nat
  | .number _ => 1
  | .array vs => callDepthOfAll vs + 1
  | .struct ⟨fs⟩ => callDepthOfFields fs + 1

def callDepthOfAll : List Value → Nat
  | [] => 0
  | v :: vs => max (callDepth v) (callDepthOfAll vs)

def callDepthOfFields : List (String × Value) → Nat
  | [] => 0
  | (_, v) :: fs => max (callDepth v) (callDepthOfFields fs)

end

mutual

/-- The text of a value, as `write` gives it, if no more than `calls` values are under way at once. -/
def writeWithin (layout : Layout) : Nat → Nat → Value → List Char → Option (List Char)
  | 0, _, _, _ => none
  | _ + 1, _, .number x, rest => some (writeNumber x ++ rest)
  | _ + 1, _, .array [], rest => some ('[' :: ']' :: rest)
  | calls + 1, depth, .array (v :: vs), rest => do
    let behind ← writeElementsWithin layout calls (depth + 1) vs (layout.newline depth ++ ']' :: rest)
    let text ← writeWithin layout calls (depth + 1) v behind
    return '[' :: (layout.newline (depth + 1) ++ text)
  | _ + 1, _, .struct ⟨[]⟩, rest => some ('{' :: '}' :: rest)
  | calls + 1, depth, .struct ⟨(name, v) :: fs⟩, rest => do
    let behind ← writeFieldsWithin layout calls (depth + 1) fs (layout.newline depth ++ '}' :: rest)
    let text ← writeWithin layout calls (depth + 1) v behind
    return '{' :: (layout.newline (depth + 1) ++ (writeString name ++ (layout.colon ++ text)))

def writeElementsWithin (layout : Layout) :
    Nat → Nat → List Value → List Char → Option (List Char)
  | _, _, [], rest => some rest
  | calls, depth, v :: vs, rest => do
    let behind ← writeElementsWithin layout calls depth vs rest
    let text ← writeWithin layout calls depth v behind
    return ',' :: (layout.newline depth ++ text)

def writeFieldsWithin (layout : Layout) :
    Nat → Nat → List (String × Value) → List Char → Option (List Char)
  | _, _, [], rest => some rest
  | calls, depth, (name, v) :: fs, rest => do
    let behind ← writeFieldsWithin layout calls depth fs rest
    let text ← writeWithin layout calls depth v behind
    return ',' :: (layout.newline depth ++ (writeString name ++ (layout.colon ++ text)))

end

theorem callDepth_pos (v : Value) : 0 < callDepth v := by
  obtain ⟨x⟩ | ⟨vs⟩ | ⟨⟨fs⟩⟩ := v <;> exact Nat.succ_pos _

/-- One text is put in front of another one if there are calls enough for both. -/
theorem bind_ite_le {α β : Type} {a b calls : Nat} {behind : α} {text : β} {next : α → Option β}
    (h : next behind = if b ≤ calls then some text else none) :
    ((if a ≤ calls then some behind else none) >>= next) =
      if max b a ≤ calls then some text else none := by
  by_cases ha : a ≤ calls
  · rw [if_pos ha, Option.bind_eq_bind, Option.bind_some, h]
    by_cases hb : b ≤ calls
    · rw [if_pos hb, if_pos (Nat.max_le.mpr ⟨hb, ha⟩)]
    · rw [if_neg hb, if_neg fun hm => hb (Nat.max_le.mp hm).1]
  · rw [if_neg ha, if_neg fun hm => ha (Nat.max_le.mp hm).2]
    rfl

theorem map_ite_le {α β : Type} {a calls : Nat} {text : α} (wrap : α → β) :
    ((if a ≤ calls then some text else none) >>= fun text => pure (wrap text)) =
      if a ≤ calls then some (wrap text) else none := by
  split <;> rfl

variable (layout : Layout)

mutual

/-- **The calls of the writer**: `callDepth` of them are enough for a value, and no fewer. -/
theorem writeWithin_eq : ∀ (v : Value) (calls depth : Nat) (rest : List Char),
    writeWithin layout calls depth v rest =
      if callDepth v ≤ calls then some (write layout depth v rest) else none
  | v, 0, depth, rest => by
    rw [writeWithin, if_neg (Nat.not_le.mpr (callDepth_pos v))]
  | .number x, calls + 1, depth, rest => by
    rw [writeWithin, write, callDepth, if_pos (Nat.le_add_left _ calls)]
  | .array [], calls + 1, depth, rest => by
    rw [writeWithin, write, callDepth, callDepthOfAll, if_pos (Nat.le_add_left _ calls)]
  | .array (v :: vs), calls + 1, depth, rest => by
    simp only [writeWithin, write, callDepth, callDepthOfAll, Nat.add_le_add_iff_right]
    rw [writeElementsWithin_eq vs]
    refine bind_ite_le ?_
    rw [writeWithin_eq v]
    exact map_ite_le _
  | .struct ⟨[]⟩, calls + 1, depth, rest => by
    rw [writeWithin, write, callDepth, callDepthOfFields, if_pos (Nat.le_add_left _ calls)]
  | .struct ⟨(name, v) :: fs⟩, calls + 1, depth, rest => by
    simp only [writeWithin, write, callDepth, callDepthOfFields, Nat.add_le_add_iff_right]
    rw [writeFieldsWithin_eq fs]
    refine bind_ite_le ?_
    rw [writeWithin_eq v]
    exact map_ite_le _

theorem writeElementsWithin_eq : ∀ (vs : List Value) (calls depth : Nat) (rest : List Char),
    writeElementsWithin layout calls depth vs rest =
      if callDepthOfAll vs ≤ calls then some (writeElements layout depth vs rest) else none
  | [], calls, depth, rest => by
    rw [writeElementsWithin, writeElements, callDepthOfAll, if_pos (Nat.zero_le calls)]
  | v :: vs, calls, depth, rest => by
    simp only [writeElementsWithin, writeElements, callDepthOfAll]
    rw [writeElementsWithin_eq vs]
    refine bind_ite_le ?_
    rw [writeWithin_eq v]
    exact map_ite_le _

theorem writeFieldsWithin_eq : ∀ (fs : List (String × Value)) (calls depth : Nat)
    (rest : List Char),
    writeFieldsWithin layout calls depth fs rest =
      if callDepthOfFields fs ≤ calls then some (writeFields layout depth fs rest) else none
  | [], calls, depth, rest => by
    rw [writeFieldsWithin, writeFields, callDepthOfFields, if_pos (Nat.zero_le calls)]
  | (name, v) :: fs, calls, depth, rest => by
    simp only [writeFieldsWithin, writeFields, callDepthOfFields]
    rw [writeFieldsWithin_eq fs]
    refine bind_ite_le ?_
    rw [writeWithin_eq v]
    exact map_ite_le _

end

mutual

/-- At most one call is under way besides those for the arrays and structs around it. -/
theorem callDepth_le : ∀ v : Value, callDepth v ≤ v.depth + 1
  | .number _ => Nat.le_refl 1
  | .array vs => Nat.succ_le_succ (callDepthOfAll_le vs)
  | .struct ⟨fs⟩ => Nat.succ_le_succ (callDepthOfFields_le fs)

theorem callDepthOfAll_le : ∀ vs : List Value, callDepthOfAll vs ≤ Value.depthOfAll vs + 1
  | [] => Nat.zero_le 1
  | v :: vs => by
    have hv := callDepth_le v
    have hvs := callDepthOfAll_le vs
    simp only [callDepthOfAll, Value.depthOfAll]
    omega

theorem callDepthOfFields_le :
    ∀ fs : List (String × Value), callDepthOfFields fs ≤ Value.depthOfFields fs + 1
  | [] => Nat.zero_le 1
  | (name, v) :: fs => by
    have hv := callDepth_le v
    have hfs := callDepthOfFields_le fs
    simp only [callDepthOfFields, Value.depthOfFields]
    omega

end

end Json

end ConstLang
