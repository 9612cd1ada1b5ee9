import Introspect.Path.Invoker
import Introspect.Proofs.Path.Splitting

/-!
Splitting and joining of paths as inverses. A text splits into segments exactly if it is their join
and each of them splits to itself alone. So the text before the last dot that divides is the join of
the other segments, and it is there that an invoker cuts off its receiver.
-/

namespace Introspect.Segment

open Text (trim)

/-- The receiver's text has the bytes of the whole that stand before the last segment and one byte
for the dot. -/
theorem toByteArray_receiverText (receiver last : String) :
    (Invoker.receiverText (receiver ++ "." ++ last) last).toByteArray =
      (receiver ++ "." ++ last).toByteArray.extract 0
        ((receiver ++ "." ++ last).utf8ByteSize - last.utf8ByteSize - 1) := by
  have hsize : (receiver ++ "." ++ last).utf8ByteSize - last.utf8ByteSize - 1 =
      receiver.toByteArray.size := by
    rw [String.utf8ByteSize_append, String.utf8ByteSize_append, String.size_toByteArray]
    change receiver.utf8ByteSize + 1 + last.utf8ByteSize - last.utf8ByteSize - 1 = _
    omega
  rw [Invoker.receiverText_append_dot, String.append_assoc, String.toByteArray_append]
  exact (ByteArray.extract_append_eq_left (by rw [← String.append_assoc, hsize])).symm

/-- A text splits into segments exactly if it is their join and each of them splits to itself alone,
and none of them is blank. The bytes before the last of several segments and its dot are within the
text, and they are the text that splits into the other segments. -/
theorem split_eq_ok_iff_join :
    (∀ path raws, split path = .ok raws ↔
      raws ≠ [] ∧ ".".intercalate raws = path ∧ ∀ raw ∈ raws, split raw = .ok [raw]) ∧
    (∀ path raws, split path = .ok raws → ∀ raw ∈ raws, trim raw.toList ≠ []) ∧
    ∀ path front last, split path = .ok (front ++ [last]) → front ≠ [] →
      last.utf8ByteSize + 1 ≤ path.utf8ByteSize ∧
      (Invoker.receiverText path last).toByteArray =
        path.toByteArray.extract 0 (path.utf8ByteSize - last.utf8ByteSize - 1) ∧
      split (Invoker.receiverText path last) = .ok front := by
  refine ⟨fun path raws => ⟨fun h => ⟨split_ne_nil h, intercalate_of_split h⟩, ?_⟩,
    fun path raws h raw hraw => ?_, fun path front last h hfront => ?_⟩
  · rintro ⟨hne, rfl, hraws⟩
    exact split_intercalate hne hraws
  · exact trim_ne_nil_of_split ((intercalate_of_split h).2 raw hraw)
  · obtain ⟨-, ⟨rfl, -⟩ | ⟨receiver, hreceiver, rfl⟩⟩ := split_concat h
    · exact absurd rfl hfront
    · refine ⟨?_, toByteArray_receiverText receiver last, ?_⟩
      · rw [String.utf8ByteSize_append, String.utf8ByteSize_append]
        change last.utf8ByteSize + 1 ≤ receiver.utf8ByteSize + 1 + last.utf8ByteSize
        omega
      · rw [Invoker.receiverText_append_dot]
        exact hreceiver

/-- Neither the dot in quotes nor that in brackets divides, and a letter of two bytes is no more
than one character of the receiver. -/
theorem split_eq_ok_iff_join_quoted :
    ".".intercalate ["é[0.5]", "Find(\".\\\".\")", "x"] = "é[0.5].Find(\".\\\".\").x" ∧
    split "é[0.5].Find(\".\\\".\").x" = .ok ["é[0.5]", "Find(\".\\\".\")", "x"] ∧
    trim "é[0.5]".toList ≠ [] ∧
    Invoker.receiverText "é[0.5].Find(\".\\\".\").x" "x" = "é[0.5].Find(\".\\\".\")" ∧
    split (Invoker.receiverText "é[0.5].Find(\".\\\".\").x" "x") =
      .ok ["é[0.5]", "Find(\".\\\".\")"] := by
  obtain ⟨hjoin, hblank, hcut⟩ := split_eq_ok_iff_join
  have hsplit : split "é[0.5].Find(\".\\\".\").x" = .ok ["é[0.5]", "Find(\".\\\".\")", "x"] := by
    refine (hjoin _ _).mpr ⟨List.cons_ne_nil _ _, rfl, ?_⟩
    decide
  refine ⟨rfl, hsplit, hblank _ _ hsplit _ List.mem_cons_self, rfl, ?_⟩
  exact (hcut _ ["é[0.5]", "Find(\".\\\".\")"] "x" hsplit (List.cons_ne_nil _ _)).2.2

end Introspect.Segment
