import Introspect.Proofs.Value.Equality
import Introspect.Value.Text

/-!
Printing of values. Only the value at the top shows the fields of an object; further down an object
is a reference to its type, so a way round through objects ends where it comes to the first of them.
Where no sequence contains itself, printing ends on every value.
-/

namespace Introspect

/-- Computations that all give a value give the values of the row. -/
theorem mapM_eq_some_map {α β : Type} {f : α → Option β} {g : α → β} {l : List α}
    (h : ∀ a ∈ l, f a = some (g a)) : l.mapM f = some (l.map g) := by
  induction l with
  | nil => rfl
  | cons a l ih =>
    obtain ⟨ha, hl⟩ := List.forall_mem_cons.mp h
    rw [List.mapM_cons, ha, ih hl]
    rfl

namespace Value

variable {h : Heap} {n m : Nat} {v : Value} {nested : Bool} {inner : Value → String}

/-! ### One level -/

/-- What is printed in the text of a value. An object shows its fields only where it is not nested
in another value. -/
def shown (h : Heap) (nested : Bool) : Value → List Value
  | object id => if nested then [] else (h.record id).fields.map Prod.snd
  | v => v.parts h

def fieldTexts (inner : Value → String) (fields : Fields) : List String :=
  fields.map fun f => f.1 ++ ": " ++ inner f.2

/-- The text of a value with the `inner` texts of what it shows. -/
def textBy (h : Heap) (inner : Value → String) (nested : Bool) : Value → String
  | null => "null"
  | bool b => if b then "true" else "false"
  | int n => toString n.toInt
  | float x => x.text
  | string s => s
  | struct ty fields => recordText ty (fieldTexts inner fields)
  | object id =>
    let r := h.record id
    if nested then "&" ++ r.ty.text else recordText r.ty (fieldTexts inner r.fields)
  | array id | list id => "[" ++ ", ".intercalate ((h.sequence id).items.map inner) ++ "]"

/-- A value has a text if all that it shows has. -/
theorem textWith?_succ (hinner : ∀ u ∈ v.shown h nested, textWith? h n true u = some (inner u)) :
    textWith? h (n + 1) nested v = some (textBy h inner nested v) := by
  have hfields {fields : Fields}
      (hall : ∀ u ∈ fields.map Prod.snd, textWith? h n true u = some (inner u)) :
      (fields.mapM fun f => do return f.1 ++ ": " ++ (← textWith? h n true f.2)) =
        some (fieldTexts inner fields) := by
    refine mapM_eq_some_map fun f hf => ?_
    rw [hall f.2 (List.mem_map_of_mem hf)]
    rfl
  cases v with
  | struct ty fields => simp only [textWith?, hfields hinner, Option.map_some, textBy]
  | object id =>
    cases nested with
    | true => rfl
    | false =>
      have hrecord := hfields hinner
      simp only [textWith?, hrecord, Option.map_some, textBy, Bool.false_eq_true, if_false]
  | array id | list id =>
    have hitems : (h.sequence id).items.mapM (textWith? h n true) =
        some ((h.sequence id).items.map inner) := mapM_eq_some_map hinner
    simp only [textWith?, hitems, Option.map_some, textBy]
  | _ => rfl

/-! ### Every level -/

/-- The text of a value that is reached through another one. -/
def nestedText (h : Heap) (v : Value) : String := (textWith? h (h.weight + v.weight) true v).getD ""

/-- Fuel that covers the depth of a nested value is enough for it, and more gives the same text. -/
theorem textWith?_of_depthAtMost (hv : v.DepthAtMost h n) (hm : n ≤ m) :
    textWith? h m true v = some ((textWith? h n true v).getD "") := by
  -- By induction on the depth, with the texts that the least fuel gives inside.
  induction n generalizing m v with
  | zero => exact hv.elim
  | succ n ih =>
    have hlevel {k : Nat} (hk : n ≤ k) : textWith? h (k + 1) true v =
        some (textBy h (fun u => (textWith? h n true u).getD "") true v) := by
      refine textWith?_succ fun u hu => ih (hv u ?_) hk
      cases v with
      | object id => cases hu
      | _ => exact hu
    obtain ⟨k, rfl⟩ : ∃ k, m = k + 1 := ⟨m - 1, by omega⟩
    rw [hlevel (Nat.le_of_succ_le_succ hm), hlevel (Nat.le_refl n), Option.getD_some]

section Acyclic

variable (hh : h.Acyclic)
include hh

theorem textWith?_of_acyclic (hv : v.DepthAtMost h n) :
    textWith? h n true v = some (nestedText h v) := by
  -- The depth may be far less than the weights, or it may be given with some to spare.
  have hboth := textWith?_of_depthAtMost hv (Nat.le_add_right n (h.weight + v.weight))
  have hweight := textWith?_of_depthAtMost (hh.depthAtMost v) (Nat.le_add_left _ n)
  rw [hweight] at hboth
  rw [textWith?_of_depthAtMost hv (Nat.le_refl n), ← Option.some.inj hboth]
  rfl

theorem nestedText_eq_textBy (v : Value) : nestedText h v = textBy h (nestedText h) true v := by
  have hdepth : v.DepthAtMost h (h.weight + v.weight + 1) :=
    (hh.depthAtMost v).mono (Nat.le_succ _)
  have hlevel : textWith? h (h.weight + v.weight + 1) true v =
      some (textBy h (nestedText h) true v) := by
    refine textWith?_succ fun u hu => textWith?_of_acyclic hh (hdepth u ?_)
    cases v with
    | object id => cases hu
    | _ => exact hu
  rw [textWith?_of_acyclic hh hdepth] at hlevel
  exact Option.some.inj hlevel

/-- At the top there is fuel for the fields of an object too. -/
theorem depthAtMost_of_shown {u : Value} (hu : u ∈ v.shown h false) :
    u.DepthAtMost h (h.weight + v.weight) := by
  cases v with
  | object id =>
    obtain ⟨f, hf, rfl⟩ := List.mem_map.mp hu
    exact (hh.depthAtMost_of_field hf).mono (Nat.le_add_right _ _)
  | _ => exact (hh.depthAtMost _).mono (Nat.le_succ _) u hu

theorem textWith?_top (hn : h.weight + v.weight < n) :
    textWith? h n false v = some (textBy h (nestedText h) false v) := by
  obtain ⟨k, rfl⟩ : ∃ k, n = k + 1 := ⟨n - 1, by omega⟩
  refine textWith?_succ fun u hu => textWith?_of_acyclic hh ?_
  exact (depthAtMost_of_shown hh hu).mono (Nat.le_of_lt_succ hn)

theorem text_eq_textBy (v : Value) : text h v = textBy h (nestedText h) false v := by
  rw [text, text?, textWith?_top hh (Nat.lt_succ_self _), Option.getD_some]

end Acyclic

/-- Where no sequence contains itself, printing ends on every value, whatever ways round there are
through objects. Each amount of fuel beyond the weights of heap and value gives the same text, and
that text is made of the texts inside as printing says, level by level. -/
theorem text_ends (hh : h.Acyclic) :
    (∀ v n, h.weight + v.weight < n → textWith? h n false v = some (text h v)) ∧
      (∀ v, text h v = textBy h (nestedText h) false v) ∧
      ∀ v, nestedText h v = textBy h (nestedText h) true v :=
  ⟨fun v _ hn => (textWith?_top hh hn).trans (congrArg some (text_eq_textBy hh v).symm),
    text_eq_textBy hh, nestedText_eq_textBy hh⟩

/-- The person is a friend of its own and refers to itself besides. -/
theorem text_ends_circle :
    Sample.circle.Acyclic ∧
    textWith? Sample.circle (Sample.circle.weight + 2) false (object 0) =
      some "Person \x7b friends: [&Person], self: &Person \x7d" ∧
    ∀ v, text Sample.circle v = textBy Sample.circle (nestedText Sample.circle) false v := by
  obtain ⟨hends, hlevels, -⟩ := text_ends Sample.circle_acyclic
  refine ⟨Sample.circle_acyclic, ?_, hlevels⟩
  rw [hends (object 0) (Sample.circle.weight + 2) (Nat.lt_succ_self _)]
  rfl

end Value

end Introspect
