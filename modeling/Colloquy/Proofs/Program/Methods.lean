import Colloquy.Proofs.Program.RoundTrip
import Colloquy.Proofs.Table.WellFormed

/-!
# The methods of a program

The methods of a main service are listed with the signatures that their types resolve to, in the
order of their names. In a program that is in order no method is left out, as every one of them is a
function, and none is listed twice, as their names are all different (`Program.lists_methods`).
-/

namespace Colloquy

/-- The signature that a type resolves to, if it is a function. -/
def Table.signature? (t : Table) (ty : Ty) : Option Signature :=
  match t.resolve ty with
  | .ok (.func modes args results) => some ⟨modes, args, results⟩
  | _ => none

theorem Table.signature?_eq_some_iff {t : Table} {ty : Ty} {signature : Signature} :
    t.signature? ty = some signature ↔
      t.resolve ty = .ok (.func signature.modes signature.args signature.results) := by
  unfold signature?
  constructor
  · intro h
    split at h
    · next hresolve =>
        cases h
        exact hresolve
    · cases h
  · intro h
    rw [h]

namespace Methods

variable {α β : Type} {g : α → Option β} {methods : List (String × α)}

/-- The methods for which there is a value, with that value. -/
def chosen (g : α → Option β) (methods : List (String × α)) : List (String × β) :=
  methods.filterMap fun method => (g method.2).map fun b => (method.1, b)

theorem chosen_append (g : α → Option β) (methods methods' : List (String × α)) :
    chosen g (methods ++ methods') = chosen g methods ++ chosen g methods' :=
  List.filterMap_append

theorem chosen_cons {name : String} {a : α} {b : β} (h : g a = some b) :
    chosen g ((name, a) :: methods) = (name, b) :: chosen g methods := by
  simp [chosen, h]

theorem mem_chosen {method : String × β} :
    method ∈ chosen g methods ↔ ∃ a, (method.1, a) ∈ methods ∧ g a = some method.2 := by
  simp only [chosen, List.mem_filterMap, Option.map_eq_some_iff, Prod.exists]
  constructor
  · rintro ⟨name, a, hmem, b, hb, rfl⟩
    exact ⟨a, hmem, hb⟩
  · rintro ⟨a, hmem, hb⟩
    exact ⟨method.1, a, hmem, method.2, hb, rfl⟩

/-- If there is a value for every method, none is left out. -/
theorem names_chosen (h : ∀ method ∈ methods, (g method.2).isSome = true) :
    (chosen g methods).map (·.1) = methods.map (·.1) := by
  induction methods with
  | nil => rfl
  | cons method methods ih =>
      obtain ⟨hhere, hrest⟩ := List.forall_mem_cons.1 h
      obtain ⟨b, hb⟩ := Option.isSome_iff_exists.1 hhere
      rw [chosen_cons hb, List.map_cons, List.map_cons, ih hrest]

theorem names_chosen_sublist (g : α → Option β) (methods : List (String × α)) :
    ((chosen g methods).map (·.1)).Sublist (methods.map (·.1)) := by
  induction methods with
  | nil => exact .slnil
  | cons method methods ih =>
      cases hb : g method.2 with
      | none =>
          have hskip : chosen g (method :: methods) = chosen g methods := by simp [chosen, hb]
          rw [hskip]
          exact ih.cons method.1
      | some b =>
          rw [chosen_cons hb]
          exact ih.cons_cons method.1

/-- Methods with different names come in the same order before and after some are left out. -/
theorem sorted_chosen (h : (methods.map (·.1)).Nodup) :
    sorted (chosen g methods) = chosen g (sorted methods) := by
  have hperm : (sorted (chosen g methods)).Perm (chosen g (sorted methods)) := by
    apply (List.mergeSort_perm _ _).trans
    exact ((List.mergeSort_perm methods _).filterMap _).symm
  have hleft := pairwise_sorted (h.sublist (names_chosen_sublist g methods))
  have hright : (chosen g (sorted methods)).Pairwise fun a b => a.1 < b.1 := by
    apply List.pairwise_map.1
    exact (List.pairwise_map.2 (pairwise_sorted h)).sublist (names_chosen_sublist g _)
  apply hperm.eq_of_pairwise _ hleft hright
  intro a b _ _ hab hba
  exact absurd (Std.lt_trans hab hba) Std.lt_irrefl

end Methods

namespace Program

variable {p : Program} {s : Service} {declared : List (String × Ty)}

theorem methods_eq_nil (hs : p.service = none) : p.methods = [] := by
  rw [methods, hs]

theorem methods_eq_sorted (hs : p.service = some s)
    (hr : p.table.resolve s.type = .ok (.service declared)) :
    p.methods = Methods.sorted (Methods.chosen p.table.signature? declared) := by
  simp only [methods, hs, hr]
  apply congrArg Methods.sorted
  apply List.filterMap_congr
  intro method _
  unfold Table.signature?
  cases p.table.resolve method.2 with
  | error e => rfl
  | ok resolved => cases resolved <;> rfl

/-- What it takes for a main service to be in order. -/
theorem exists_declared (h : p.validate = .ok ()) (hs : p.service = some s) :
    ∃ declared, p.table.resolve s.type = .ok (.service declared) ∧
      (declared.map (·.1)).Nodup ∧
      ∀ method ∈ declared, (p.table.signature? method.2).isSome = true := by
  obtain ⟨hwellFormed, hservice⟩ := validate_eq_ok_iff.1 h
  obtain ⟨-, htype, declared, hr⟩ := validateService_eq_ok_iff.1 (hservice s hs)
  obtain ⟨hnames, hfuncs⟩ := (hwellFormed.admits_resolve htype hr).fits
  refine ⟨declared, hr, hnames, fun method hmem => ?_⟩
  obtain ⟨modes, args, results, hfunc⟩ := hfuncs method hmem
  exact Option.isSome_iff_exists.2
    ⟨⟨modes, args, results⟩, Table.signature?_eq_some_iff.2 hfunc⟩

/-- The methods that a service declares are listed, each of them once, in strictly ascending order of
their names and with the signatures that their types resolve to. -/
structure Lists (t : Table) (declared : List (String × Ty))
    (listed : List (String × Signature)) : Prop where
  once : (listed.map (·.1)).Perm (declared.map (·.1))
  ascending : (listed.map (·.1)).Pairwise (· < ·)
  resolved : ∀ method ∈ listed, ∃ ty, (method.1, ty) ∈ declared ∧
    t.resolve ty = .ok (.func method.2.modes method.2.args method.2.results)

/-- The methods of a valid program list those that its main service declares. -/
theorem lists_methods (h : p.validate = .ok ()) (hs : p.service = some s) :
    ∃ declared, p.table.resolve s.type = .ok (.service declared) ∧
      Lists p.table declared p.methods := by
  obtain ⟨declared, hr, hnames, hsome⟩ := exists_declared h hs
  have hmethods := methods_eq_sorted hs hr
  have hchosen := Methods.names_chosen hsome
  refine ⟨declared, hr, ⟨?_, ?_, ?_⟩⟩
  · rw [hmethods, ← hchosen]
    exact (List.mergeSort_perm _ _).map _
  · rw [hmethods]
    exact List.pairwise_map.2 (Methods.pairwise_sorted (hchosen ▸ hnames))
  · intro method hmem
    rw [hmethods, Methods.mem_sorted, Methods.mem_chosen] at hmem
    obtain ⟨ty, hty, hsignature⟩ := hmem
    exact ⟨ty, hty, Table.signature?_eq_some_iff.1 hsignature⟩

end Program

end Colloquy
