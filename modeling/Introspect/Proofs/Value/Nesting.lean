import Introspect.Proofs.Memory
import Introspect.Value.Weight
import Mathlib.Algebra.BigOperators.Group.Finset.Basic
import Mathlib.Algebra.Order.BigOperators.Group.Finset
import Mathlib.Logic.Relation

/-!
How deep values nest. A way down leads through the fields of structs and the items of sequences, and
it ends at objects, which may refer to each other as they like. Where no sequence contains itself,
a way down from a value passes each sequence once, so it is no longer than the weights of the value
and the heap together.
-/

namespace Introspect

open Relation (TransGen ReflTransGen)

namespace Value

/-- What is directly inside a value: the fields of a struct, or the items of a sequence. -/
def parts (h : Heap) : Value → List Value
  | struct _ fields => fields.map Prod.snd
  | array id | list id => (h.sequence id).items
  | _ => []

mutual

/-- The sequences that a value is or holds in its fields. -/
def sequences : Value → List SequenceId
  | struct _ fields => sequencesOf fields
  | array id | list id => [id]
  | _ => []

def sequencesOf : List (String × Value) → List SequenceId
  | [] => []
  | (_, v) :: rest => sequences v ++ sequencesOf rest

end

/-- Whether no way down from a value has more than some number of values on it. -/
def DepthAtMost (h : Heap) : Nat → Value → Prop
  | 0, _ => False
  | n + 1, v => ∀ u ∈ v.parts h, DepthAtMost h n u

theorem DepthAtMost.mono {h : Heap} {n m : Nat} (hnm : n ≤ m) {v : Value}
    (hv : v.DepthAtMost h n) : v.DepthAtMost h m := by
  induction n generalizing m v with
  | zero => exact hv.elim
  | succ n ih =>
    obtain ⟨m, rfl⟩ : ∃ k, m = k + 1 := ⟨m - 1, by omega⟩
    exact fun u hu => ih (by omega) (hv u hu)

theorem sequences_subset_of_field {fields : Fields} {f : String × Value} (hf : f ∈ fields) :
    f.2.sequences ⊆ sequencesOf fields := by
  induction fields with
  | nil => cases hf
  | cons e rest ih =>
    rw [sequencesOf]
    rcases List.mem_cons.mp hf with rfl | hf
    · exact List.subset_append_left _ _
    · exact List.subset_append_of_subset_right _ (ih hf)

theorem weight_pos (v : Value) : 0 < v.weight := by
  cases v <;> simp [weight]

theorem weight_le_of_field {fields : Fields} {f : String × Value} (hf : f ∈ fields) :
    f.2.weight ≤ weightFields fields := by
  induction fields with
  | nil => cases hf
  | cons e rest ih =>
    rw [weightFields]
    rcases List.mem_cons.mp hf with rfl | hf
    · omega
    · have := ih hf
      omega

theorem weight_le_of_item {items : List Value} {v : Value} (hv : v ∈ items) :
    v.weight ≤ weightAll items := by
  induction items with
  | nil => cases hv
  | cons u rest ih =>
    rw [weightAll]
    rcases List.mem_cons.mp hv with rfl | hv
    · omega
    · have := ih hv
      omega

end Value

namespace Heap

/-- Whether an item of one sequence is the other one or has it in the fields of structs. -/
def Contains (h : Heap) (i j : SequenceId) : Prop := ∃ v ∈ (h.sequence i).items, j ∈ v.sequences

/-- Whether no sequence contains itself, by way of other sequences or not. What objects hold does
not count. -/
def Acyclic (h : Heap) : Prop := ∀ i, ¬ TransGen h.Contains i i

/-- A heap is acyclic if there is a rank that falls from each sequence to those inside it. -/
theorem acyclic_of_rank {h : Heap} (rank : SequenceId → Nat)
    (hrank : ∀ i j, h.Contains i j → rank j < rank i) : h.Acyclic := by
  have hfall {i j : SequenceId} (hij : TransGen h.Contains i j) : rank j < rank i := by
    induction hij with
    | single hij => exact hrank _ _ hij
    | tail _ hjk ih => exact Nat.lt_trans (hrank _ _ hjk) ih
  exact fun i hi => Nat.lt_irrefl _ (hfall hi)

/-- The weight of what a sequence has in it. -/
def contentWeight (h : Heap) (i : SequenceId) : Nat := Value.weightAll (h.sequence i).items

theorem sum_contentWeight_le (h : Heap) :
    ∑ i ∈ Finset.range h.sequences.size, h.contentWeight i ≤
      weightSequences h.sequences.toList := by
  have hlist (sequences : List Sequence) :
      ∑ i ∈ Finset.range sequences.length, Value.weightAll (sequences[i]?.getD ⟨none, []⟩).items ≤
        weightSequences sequences := by
    induction sequences with
    | nil => simp [weightSequences]
    | cons s rest ih =>
      rw [List.length_cons, Finset.sum_range_succ', weightSequences]
      simp only [List.getElem?_cons_succ, List.getElem?_cons_zero, Option.getD_some]
      omega
  have hall := hlist h.sequences.toList
  simp only [Array.length_toList, Array.getElem?_toList] at hall
  exact hall

/-- What a record has in its fields counts in the weight of all records. -/
theorem weightFields_record_le (h : Heap) (id : RecordId) :
    Value.weightFields (h.record id).fields ≤ weightRecords h.records.toList := by
  have hlist (records : List Record) (id : RecordId) :
      Value.weightFields (records[id]?.getD ⟨.object, []⟩).fields ≤ weightRecords records := by
    induction records generalizing id with
    | nil => simp [Value.weightFields, weightRecords]
    | cons r rest ih =>
      rw [weightRecords]
      cases id with
      | zero =>
        rw [List.getElem?_cons_zero, Option.getD_some]
        omega
      | succ id =>
        have := ih id
        rw [List.getElem?_cons_succ]
        omega
  have hall := hlist h.records.toList id
  rw [Array.getElem?_toList] at hall
  exact hall

/-- A budget is enough for a value if it covers its weight and the contents of all sequences that
are reached from it. -/
theorem depthAtMost_of_budget {h : Heap} (hh : h.Acyclic) {n : Nat} {v : Value}
    (allowed : Finset SequenceId)
    (hallowed : ∀ i ∈ v.sequences, ∀ j, ReflTransGen h.Contains i j → j < h.sequences.size →
      j ∈ allowed)
    (hn : v.weight + ∑ i ∈ allowed, h.contentWeight i ≤ n) : v.DepthAtMost h n := by
  -- The induction is on the budget. A sequence on the way is paid for with its own share of it,
  -- and it is not allowed again further down.
  induction n generalizing v allowed with
  | zero =>
    have := v.weight_pos
    omega
  | succ n ih =>
    have hsequence {id : SequenceId} (hv : v.sequences = [id]) (hweight : v.weight = 1) {u : Value}
        (hu : u ∈ (h.sequence id).items) : u.DepthAtMost h n := by
      have hid : id < h.sequences.size := by
        obtain ⟨k, hk, -⟩ := List.mem_iff_getElem.mp hu
        exact lt_size_of_item hk
      have hmem : id ∈ allowed := hallowed id (by simp [hv]) id .refl hid
      refine ih (allowed.erase id) (fun i hi j hij hj => ?_) ?_
      · have hinside : TransGen h.Contains id j := .head' ⟨u, hu, hi⟩ hij
        have hne : j ≠ id := fun he => hh id (he ▸ hinside)
        exact Finset.mem_erase.mpr ⟨hne, hallowed id (by simp [hv]) j hinside.to_reflTransGen hj⟩
      · have hsplit := Finset.add_sum_erase allowed h.contentWeight hmem
        have hu' : u.weight ≤ h.contentWeight id := Value.weight_le_of_item hu
        omega
    intro u hu
    cases v with
    | struct ty fields =>
      obtain ⟨f, hf, rfl⟩ := List.mem_map.mp hu
      refine ih allowed (fun i hi => hallowed i (Value.sequences_subset_of_field hf hi)) ?_
      have hweight := Value.weight_le_of_field hf
      rw [Value.weight] at hn
      omega
    | array id => exact hsequence rfl rfl hu
    | list id => exact hsequence rfl rfl hu
    | _ => cases hu

/-- In an acyclic heap no way down from a value is longer than the weights of the value and of all
sequences. -/
theorem Acyclic.depthAtMost_of_weight {h : Heap} (hh : h.Acyclic) {n : Nat} {v : Value}
    (hn : v.weight + weightSequences h.sequences.toList ≤ n) : v.DepthAtMost h n := by
  refine depthAtMost_of_budget hh (Finset.range h.sequences.size)
    (fun _ _ j _ hj => Finset.mem_range.mpr hj) ?_
  exact Nat.le_trans (Nat.add_le_add_left h.sum_contentWeight_le _) hn

theorem Acyclic.depthAtMost {h : Heap} (hh : h.Acyclic) (v : Value) :
    v.DepthAtMost h (h.weight + v.weight) := by
  apply hh.depthAtMost_of_weight
  rw [weight]
  omega

/-- The heap alone outweighs each way down from a field of one of its records. -/
theorem Acyclic.depthAtMost_of_field {h : Heap} (hh : h.Acyclic) {id : RecordId}
    {f : String × Value} (hf : f ∈ (h.record id).fields) : f.2.DepthAtMost h h.weight := by
  apply hh.depthAtMost_of_weight
  rw [weight]
  have hfield := Value.weight_le_of_field hf
  have hrecord := h.weightFields_record_le id
  omega

end Heap

end Introspect
