import Colloquy.Proofs.Value.Equality
import Colloquy.Proofs.Value.Spelling

/-!
# Printing and reading a value

The text of every value without floats is read, and as long as no record repeats an id what is read
is the value with `null` in place of every option without a value (`exists_parse_of_source`). So
printing and reading is the identity exactly on the values in which there is no such option: its text
is `null`, and without a type that is read as the value `null`.
-/

namespace Colloquy

open List (Forall₂)

namespace Value

variable {packing : Prop} {v w u : Value} {items : List Value} {fields : List (Label × Value)}

mutual

/-- The value that the text of a value denotes: options without a value are written as `null`. -/
def asWritten : Value → Value
  | .absent => .null
  | .present v => .present v.asWritten
  | .vec items => .vec (asWrittenItems items)
  | .record fields => .record (asWrittenFields fields)
  | .variant tag v => .variant tag v.asWritten
  | v => v

def asWrittenItems : List Value → List Value
  | [] => []
  | v :: rest => v.asWritten :: asWrittenItems rest

def asWrittenFields : List (Label × Value) → List (Label × Value)
  | [] => []
  | (label, v) :: rest => (label, v.asWritten) :: asWrittenFields rest

end

theorem asWrittenItems_eq_map : asWrittenItems items = items.map asWritten := by
  induction items with
  | nil => rfl
  | cons v items ih => simp [asWrittenItems, ih]

theorem asWrittenFields_eq_map :
    asWrittenFields fields = fields.map fun field => (field.1, field.2.asWritten) := by
  induction fields with
  | nil => rfl
  | cons field fields ih => simp [asWrittenFields, ih]

theorem children_asWritten (v : Value) : v.asWritten.children = v.children.map asWritten := by
  cases v with
  | vec items => simp [asWritten, children, asWrittenItems_eq_map]
  | record fields => simp [asWritten, children, asWrittenFields_eq_map]
  | _ => rfl

/-- The parts of a value are written one by one. -/
theorem exists_part_of_asWritten (h : w ∈ v.asWritten.parts) : ∃ u ∈ v.parts, u.asWritten = w := by
  induction v using ofChildren with
  | h v ih =>
      rcases mem_parts_iff.1 h with rfl | ⟨child, hchild, hmem⟩
      · exact ⟨v, self_mem_parts v, rfl⟩
      · rw [children_asWritten] at hchild
        obtain ⟨u, hu, rfl⟩ := List.mem_map.1 hchild
        obtain ⟨part, hpart, heq⟩ := ih u hu hmem
        exact ⟨part, mem_parts_of_mem_children hu hpart, heq⟩

theorem absent_not_mem_asWritten (v : Value) : absent ∉ v.asWritten.parts := by
  intro hmem
  obtain ⟨u, -, hu⟩ := exists_part_of_asWritten hmem
  cases u <;> cases hu

theorem floatFree_asWritten (h : v.floatFree = true) : v.asWritten.floatFree = true := by
  refine floatFree_iff.2 fun s hs => ?_
  obtain ⟨u, hmem, hu⟩ := exists_part_of_asWritten hs
  cases u with
  | scalar s' =>
      cases hu
      exact floatFree_iff.1 h s hmem
  | absent =>
      cases hu
      rfl
  | _ => cases hu

theorem distinct_asWritten (h : v.Distinct) : v.asWritten.Distinct := by
  intro fields hfields
  obtain ⟨u, hmem, hu⟩ := exists_part_of_asWritten hfields
  cases u with
  | record fields' =>
      cases hu
      have hlabels : Fields.labels (asWrittenFields fields') = Fields.labels fields' := by
        simp [Fields.labels, asWrittenFields_eq_map]
      rw [hlabels]
      exact h fields' hmem
  | _ => cases hu

/-- A value in which every option has a value is written as it is. -/
theorem asWritten_eq_self (h : absent ∉ v.parts) : v.asWritten = v := by
  induction v using ofChildren with
  | h v ih =>
      have hchild : ∀ w ∈ v.children, w.asWritten = w := fun w hw =>
        ih w hw fun hmem => h (mem_parts_of_mem_children hw hmem)
      cases v with
      | absent => exact absurd (self_mem_parts _) h
      | present v => rw [asWritten, hchild v (List.mem_singleton_self v)]
      | vec items =>
          have hitems : items.map asWritten = items.map id := List.map_congr_left hchild
          rw [asWritten, asWrittenItems_eq_map, hitems, List.map_id]
      | record fields =>
          have hfields : (fields.map fun field => (field.1, field.2.asWritten)) = fields.map id :=
            List.map_congr_left fun field hf => by rw [hchild field.2 (List.mem_map_of_mem hf)]; rfl
          rw [asWritten, asWrittenFields_eq_map, hfields, List.map_id]
      | variant tag v => rw [asWritten, hchild v (List.mem_singleton_self v)]
      | scalar | blob | func | service => rfl

/-- What is read is alike to what has been written. -/
theorem Reread.alike (h : Reread v u) : Alike packing v.asWritten u := by
  induction v using ofChildren generalizing u with
  | h v ih =>
      cases h with
      | scalar s => exact .scalar s
      | absent => exact .scalar .null
      | present h => exact .present (ih _ (List.mem_singleton_self _) h)
      | vec h =>
          rw [asWritten, asWrittenItems_eq_map]
          refine .vec (List.forall₂_map_left_iff.2 ?_)
          exact forall₂_imp_of_mem h fun v hv u => ih v hv
      | blob bytes => exact .blob bytes
      | @record fields fields' hids hvalues =>
          rw [asWritten, asWrittenFields_eq_map]
          have hall := forall₂_imp_of_mem hvalues fun v hv u => ih v hv
          have hfields := forall₂_keyed_iff.2 ⟨hids, hall⟩
          refine alike_record_iff.2 ⟨fields', rfl, fields', ?_, .refl fields'⟩
          exact List.forall₂_map_left_iff.2 hfields
      | variant hid h => exact .variant hid (ih _ (List.mem_singleton_self _) h)
      | func p method => exact .func p method
      | service p => exact .service p

/-- A value that is alike has options without a value as well. -/
theorem absent_mem_of_alike (h : Alike packing v w) (hmem : absent ∈ v.parts) :
    absent ∈ w.parts := by
  induction v using ofChildren generalizing w with
  | h v ih =>
      rcases mem_parts_iff.1 hmem with rfl | ⟨child, hchild, hpart⟩
      · cases h
        exact self_mem_parts _
      · cases h with
        | scalar | absent | blob | unpacked | func | service => cases hchild
        | present h | variant _ h =>
            obtain rfl := List.mem_singleton.1 hchild
            exact mem_parts_of_mem_children (List.mem_singleton_self _) (ih _ hchild h hpart)
        | vec h =>
            obtain ⟨child', hchild', hc⟩ := exists_right_of_forall₂ h hchild
            exact mem_parts_of_mem_children hchild' (ih _ hchild hc hpart)
        | packed bytes =>
            obtain ⟨b, _, rfl⟩ := List.mem_map.1 hchild
            simp [parts] at hpart
        | @record fields mid fields' hids hvalues hperm =>
            obtain ⟨child', hchild', hc⟩ := exists_right_of_forall₂ hvalues hchild
            have hchild' : child' ∈ (record fields').children := (hperm.map _).mem_iff.1 hchild'
            exact mem_parts_of_mem_children hchild' (ih _ hchild hc hpart)

/-- The text of a value without floats is read, and if no record repeats an id, what is read is what
has been written. It is the value itself if and only if every option in it has a value. -/
theorem exists_parse_of_source (hfloats : v.floatFree = true) (hdistinct : v.Distinct) :
    ∃ w, parse v.source = .ok w ∧ w.same v.asWritten = true ∧
      (w.same v = true ↔ absent ∉ v.parts) := by
  obtain ⟨w, hparse, hreread⟩ := exists_reread hfloats
  have halike : Alike True v.asWritten w := hreread.alike
  obtain ⟨hto, hback⟩ := halike.same (floatFree_asWritten hfloats) (distinct_asWritten hdistinct)
  refine ⟨w, hparse, hback, fun hsame habsent => ?_, fun habsent => ?_⟩
  · have hself : v.asWritten.same v = true := same_trans hto hsame
    have halike' : Alike True v.asWritten v :=
      (same_iff_alike (floatFree_asWritten hfloats) (distinct_asWritten hdistinct) hdistinct).1 hself
    exact absent_not_mem_asWritten v (absent_mem_of_alike halike'.symm habsent)
  · rw [asWritten_eq_self habsent] at hback
    exact hback

/-- A letter: an address that is there, a number of fixed width and some bytes. -/
def letter : Value :=
  .record [(.named "to", .present (.scalar (.text "a\"b"))), (.numbered 7, .scalar (.int16 (-5))),
    (.positional 2, .blob [0, 0x41])]

theorem exists_parse_of_source_letter : ∃ w, parse letter.source = .ok w ∧ w.same letter = true := by
  obtain ⟨w, hparse, -, hsame⟩ := exists_parse_of_source (v := letter) rfl (by decide)
  exact ⟨w, hparse, hsame.2 (by simp [letter, parts, partsOfFields])⟩

example : letter.source =
    "record \x7b to = opt \"a\\\"b\"; 7 = (-5 : int16); 2 = blob \"\\00A\" \x7d" := by
  decide +kernel

/-- An annotation makes `null` an option without a value, and the text of that is `null` again. -/
theorem not_same_of_parse_source : ∃ v w, parse "(null : opt nat)" = .ok v ∧ v.floatFree = true ∧
    v.Distinct ∧ parse v.source = .ok w ∧ w.same v = false := by
  obtain ⟨w, hw, hreread⟩ := exists_reread (v := .absent) rfl
  cases hreread
  refine ⟨.absent, .null, ?_, rfl, by decide, hw, by cbv⟩
  have hempty : (parse "(null : opt nat)").toOption.map (fun v => (v.kind, v.children.length)) =
      some ("opt", 0) := by decide +kernel
  cases hparse : parse "(null : opt nat)" with
  | error e =>
      rw [hparse] at hempty
      cases hempty
  | ok v =>
      rw [hparse] at hempty
      obtain ⟨hkind, hlength⟩ : v.kind = "opt" ∧ v.children.length = 0 :=
        Prod.mk.inj (Option.some.inj hempty)
      cases v with
      | absent => rfl
      | present v => cases hlength
      | scalar s => cases s <;> simp [kind, Scalar.primitive, Primitive.keyword] at hkind
      | _ => simp [kind] at hkind

end Value

end Colloquy
