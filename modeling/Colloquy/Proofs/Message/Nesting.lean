import Colloquy.Proofs.Message.Coercing

/-!
# What stands in a message is read

A value that stands between two cursors is read as the type that the message declares for it, if it
is nested no deeper than the reader may go (`read_of_spans`). The only thing that is in the way of a
reader is how deep the value goes; at an unbounded depth the grammar of values and the reader agree.
-/

namespace Colloquy

namespace Values

variable {limits : Limits} {t : Table} {c d m : Cursor}

/-- If each of the items can be read, they all can. -/
theorem repeatRead_eq_ok_of_itemsSpan {inner : Ty} {read : Nat → Reader CodecError Value}
    {items : List Value}
    (hread : ∀ v ∈ items, ∀ i c d, Spans limits t inner c v d → read i c = .ok v d)
    (h : ItemsSpan limits t inner c items d) (index : Nat) (done : List Value) :
    repeatRead read index done items.length c = .ok (done.reverse ++ items) d := by
  induction items generalizing c index done with
  | nil =>
      cases h
      simp [repeatRead, Reader.pure_ok_iff]
  | cons v items ih =>
      obtain ⟨hfirst, hread⟩ := List.forall_mem_cons.1 hread
      cases h with
      | cons hv hrest =>
          refine Reader.bind_ok_iff.2 ⟨v, _, hfirst _ _ _ hv, ?_⟩
          simpa using ih hread hrest (index + 1) (v :: done)

/-- A record that is read as itself keeps every field, each with its place. -/
theorem presentFields_eq_ok_of_fieldsSpan {f : Frame} {path : Path}
    {read : Path → Ty → Ty → Reader CodecError Value} {skipField : Ty → Reader CodecError Unit}
    (before : List (Label × Ty)) {fields : List (Label × Ty)} {values : List (Label × Value)}
    (hread : ∀ v ∈ values.map (·.2), ∀ ty ∈ fields.map (·.2), ∀ path c d, Spans limits t ty c v d →
      read path ty ty c = .ok v d)
    (hunique : ((Fields.labels (before ++ fields)).map Label.id).Nodup)
    (h : FieldsSpan limits t fields c values d) :
    presentFields f path read skipField (before ++ fields) fields c =
      .ok ((values.zipIdx before.length).map fun x => (x.2, x.1.2)) d := by
  induction fields generalizing before values c with
  | nil =>
      cases h
      rfl
  | cons field fields ih =>
      cases h with
      | @cons label ty v _ values _ m _ hv hrest =>
          obtain ⟨hfirst, hread⟩ := List.forall_mem_cons.1 hread
          have hfind : ((before ++ (label, ty) :: fields).zipIdx.find? fun x => x.1.1.same label) =
              some ((label, ty), before.length) :=
            Fields.find?_zipIdx hunique (by simp) rfl
          have hshift : before ++ (label, ty) :: fields = (before ++ [(label, ty)]) ++ fields := by
            simp
          rw [presentFields, hfind]
          refine Reader.bind_ok_iff.2 ⟨v, m, hfirst ty (by simp) _ _ _ hv, ?_⟩
          refine Reader.bind_ok_iff.2 ⟨_, d, ?_, rfl⟩
          rw [hshift] at hunique ⊢
          have hrest := ih _ (fun w hw ty hty => hread w hw ty (List.mem_cons_of_mem _ hty))
            hunique hrest
          simpa using hrest

/-- A record is read at its own type with the fields that it has. -/
theorem readStep_record_self {path : Path} {read : Path → Ty → Ty → Reader CodecError Value}
    {skip : Ty → Reader CodecError Unit} {fields : List (Label × Ty)}
    {values : List (Label × Value)}
    (hread : ∀ v ∈ values.map (·.2), ∀ ty ∈ fields.map (·.2), ∀ path c d, Spans limits t ty c v d →
      read path ty ty c = .ok v d)
    (hunique : ((Fields.labels fields).map Label.id).Nodup)
    (h : FieldsSpan limits t fields c values d) :
    ReadStep ⟨limits, t, t⟩ read skip path (.record fields) (.record fields) c (.record values) d := by
  have hcomplete : completeFields ⟨limits, t, t⟩ path
      ((values.zipIdx 0).map fun x => (x.2, x.1.2)) 0 fields = .ok values :=
    completeFields_eq_ok h.labels_eq fun k ty v _ hv => .inl (lookup_zipIdx hv)
  exact .record (presentFields_eq_ok_of_fieldsSpan [] hread hunique h) hcomplete

/-- What stands between the cursors is read as the type that the message declares, if the reader may
go down all its levels. The induction is on the levels; a placeholder takes a level of its own
because it is skipped as a value of its type. -/
theorem read_of_spans (hwf : t.WellFormed) {levels : Nat} {path : Path} {ty : Ty} {v : Value}
    (hty : t.Admits ty) (h : Spans limits t ty c v d) (hnesting : v.nesting ≤ levels) :
    read ⟨limits, t, t⟩ levels path ty ty c = .ok v d := by
  induction levels generalizing path ty v c d with
  | zero => exact absurd hnesting v.nesting_pos.not_ge
  | succ levels ih =>
      have hread {a : Ty} (hr : t.resolve ty = .ok a)
          (hstep : ReadStep ⟨limits, t, t⟩ (read ⟨limits, t, t⟩ levels) (skip limits t path levels)
            path a a c v d) :
          read ⟨limits, t, t⟩ (levels + 1) path ty ty c = .ok v d :=
        read_succ_eq_ok_iff.2 ⟨a, a, hr, hr, hstep⟩
      have hparts {a : Ty} (hr : t.resolve ty = .ok a) : ∀ w ∈ v.children, ∀ ty ∈ a.children,
          ∀ path c d, Spans limits t ty c w d →
          read ⟨limits, t, t⟩ levels path ty ty c = .ok w d := by
        intro w hw inner hinner path c d hspan
        have hlt := Value.nesting_lt_of_mem_children hw
        exact ih ((hwf.admits_resolve hty hr).child hinner) hspan (by omega)
      cases h with
      | @scalar _ p s _ _ path' hr hs =>
          have hs := scalar_eq_ok_of_path hs path
          by_cases hreserved : p = .reserved
          · subst hreserved
            obtain ⟨rfl, rfl⟩ := Reader.pure_ok_iff.1 hs
            have hspan : Spans limits t (.prim .reserved) c (.scalar .reserved) c :=
              .scalar path rfl rfl
            exact hread hr (.reserved (skip_eq_ok_of_spans hspan (Nat.le_of_succ_le_succ hnesting)))
          · exact hread hr (.scalar hreserved hs)
      | absent hr hflag => exact hread hr (.absent hflag)
      | @present _ inner w _ _ _ hr hflag hw =>
          have hw := hparts hr w (List.mem_singleton_self w) inner (by simp [Ty.children]) path _ _ hw
          exact hread hr (.present hflag hw)
      | blob hr hn hitem hbytes => exact hread hr (.bytes hn hitem hitem hbytes)
      | @vec _ inner _ _ _ _ _ hr hn hitem hne hitems =>
          have hitems := repeatRead_eq_ok_of_itemsSpan (fun w hw i c d hspan => hparts hr w hw inner
            (by simp [Ty.children]) (path.push (toString i)) c d hspan) hitems 0 []
          exact hread hr (.items hn hitem (fun hbyte => absurd hbyte hne) hitems)
      | record hr hfields =>
          exact hread hr
            (readStep_record_self (hparts hr) (hwf.admits_resolve hty hr).fits hfields)
      | @variant _ inner _ tag w _ _ _ hr htag hw =>
          have hmem := mem_of_selectedTag htag
          have hw := hparts hr w (List.mem_singleton_self w) inner (List.mem_map_of_mem hmem)
            (path.push tag.text) _ _ hw
          have hfind := Fields.find?_of_mem (hwf.admits_resolve hty hr).fits hmem rfl
          exact hread hr (.variant htag hfind hw)
      | func hr hp => exact hread hr (.func hp)
      | service hr hp => exact hread hr (.service hp)

end Values

end Colloquy
