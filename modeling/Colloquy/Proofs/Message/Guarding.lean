import Colloquy.Message.Values
import Colloquy.Proofs.Wire.Reading

/-!
# Limits only guard

A reader has three limits: how long a type table may be, how deep values may be nested, and how many
elements without bytes a vector may have. Under stricter limits a read does what it does under wider
ones, step by step, or it gives up and names the limit that it would exceed (`Values.guarded_read`,
`Header.guarded_read`). In particular no limit has a say in what a value is read as.

The relation between the two reads is closed under steps in a row, so it goes through the readers
along their definitions. The same relation compares reads under one limit that have more or fewer
levels left.
-/

namespace Colloquy

/-- The first result is the second one, or it is a failure that `E` allows. -/
def SameOr {ε α : Type} (E : ε → Prop) (x y : Except ε α) : Prop :=
  x = y ∨ ∃ e, E e ∧ x = .error e

namespace SameOr

variable {ε α β : Type} {E : ε → Prop} {x y : Except ε α} {f g : α → Except ε β}

theorem refl (x : Except ε α) : SameOr E x x :=
  .inl rfl

theorem error {e : ε} (he : E e) : SameOr E (.error e) y :=
  .inr ⟨e, he, rfl⟩

theorem bind (hx : SameOr E x y) (hf : ∀ a, SameOr E (f a) (g a)) :
    SameOr E (x >>= f) (y >>= g) := by
  rcases hx with rfl | ⟨e, he, rfl⟩
  · cases x with
    | ok a => exact hf a
    | error e => exact .refl _
  · exact .error he

/-- The results need not be the same if one is carried to the other. -/
theorem bind_map {γ : Type} {y : Except ε γ} {carry : γ → α} {g : γ → Except ε β}
    (hx : SameOr E x (y.map carry)) (hf : ∀ c, y = .ok c → SameOr E (f (carry c)) (g c)) :
    SameOr E (x >>= f) (y >>= g) := by
  rcases hx with rfl | ⟨e, he, rfl⟩
  · cases y with
    | ok c => exact hf c rfl
    | error e => exact .refl _
  · exact .error he

end SameOr

namespace Reader

variable {ε α β : Type} {E : ε → Prop} {x y : Reader ε α} {f g : α → Reader ε β}

/-- The first read does what the second does, or it gives up in one of the ways that `E` allows. -/
def Guarded (E : ε → Prop) (x y : Reader ε α) : Prop :=
  ∀ c, x c = y c ∨ ∃ e m, E e ∧ x c = .error e m

theorem guarded_refl (x : Reader ε α) : Guarded E x x :=
  fun _ => .inl rfl

theorem guarded_throw {e : ε} (he : E e) (y : Reader ε α) : Guarded E (throw e) y :=
  fun c => .inr ⟨e, c, he, rfl⟩

/-- Guarded reads in a row are guarded. -/
theorem Guarded.bind (hx : Guarded E x y) (hf : ∀ a, Guarded E (f a) (g a)) :
    Guarded E (x >>= f) (y >>= g) := by
  intro c
  rcases hx c with h | ⟨e, m, he, h⟩
  · cases hy : y c with
    | ok a m =>
        rw [bind_of_ok (h.trans hy), bind_of_ok hy]
        exact hf a m
    | error e m =>
        rw [bind_of_error (h.trans hy), bind_of_error hy]
        exact .inl rfl
  · exact .inr ⟨e, m, he, bind_of_error h⟩

/-- Steps after the same first one. -/
theorem Guarded.next (x : Reader ε α) (hf : ∀ a, Guarded E (f a) (g a)) :
    Guarded E (x >>= f) (x >>= g) :=
  (guarded_refl x).bind hf

/-- The first read gives up before it goes on. -/
theorem guarded_throw_bind {e : ε} (he : E e) (y : Reader ε β) : Guarded E (throw e >>= f) y :=
  fun c => .inr ⟨e, c, he, rfl⟩

end Reader

/-- The failures of a reader that would exceed one of its limits; each names the limit. -/
inductive Limits.Exceeded (limits : Limits) : CodecError → Prop where
  | tableLen (len : Nat) : Exceeded limits (.schema (.tableTooLarge len limits.tableLen))
  | depth : Exceeded limits (.wire (.tooDeep limits.depth))
  | zeroSized (offset len : Nat) :
      Exceeded limits (.wire (.lengthTooLarge offset len limits.zeroSized))

/-- No limit of the first is wider than that of the second. -/
structure Limits.Within (limits limits' : Limits) : Prop where
  tableLen : limits.tableLen ≤ limits'.tableLen
  depth : limits.depth ≤ limits'.depth
  zeroSized : limits.zeroSized ≤ limits'.zeroSized

open Reader (Guarded guarded_refl guarded_throw guarded_throw_bind)

namespace Values

open Header (wire ofSchema)

variable {E : CodecError → Prop} {limits limits' : Limits} {t actual expected : Table} {path : Path}
  {levels levels' : Nat}

/-! ### Parts of a value -/

theorem guarded_repeatSkip {skip skip' : Reader CodecError Unit} (h : Guarded E skip skip')
    (n : Nat) : Guarded E (repeatSkip skip n) (repeatSkip skip' n) := by
  induction n with
  | zero => exact guarded_refl _
  | succ n ih => exact h.bind fun _ => ih

theorem guarded_repeatRead {α : Type} {read read' : Nat → Reader CodecError α}
    (h : ∀ i, Guarded E (read i) (read' i)) (index : Nat) (done : List α) (n : Nat) :
    Guarded E (repeatRead read index done n) (repeatRead read' index done n) := by
  induction n generalizing index done with
  | zero => exact guarded_refl _
  | succ n ih => exact (h index).bind fun a => ih _ _

theorem guarded_forM {α : Type} {skip skip' : α → Reader CodecError Unit}
    (h : ∀ a, Guarded E (skip a) (skip' a)) (l : List α) :
    Guarded E (l.forM skip) (l.forM skip') := by
  induction l with
  | nil => exact guarded_refl _
  | cons a l ih => exact (h a).bind fun _ => ih

section Shapes

variable {read read' : Path → Ty → Ty → Reader CodecError Value}
  {skip skip' : Ty → Reader CodecError Unit}
  (hcount : ∀ element, Guarded E (count limits t element) (count limits' t element))
  (hskip : ∀ ty, Guarded E (skip ty) (skip' ty))

include hskip

include hcount in
/-- Passing over a structural type is guarded if counting and passing over its parts are. -/
theorem guarded_skipShape (ty : Ty) :
    Guarded E (skipShape limits t skip path ty) (skipShape limits' t skip' path ty) := by
  cases ty with
  | prim | service | func | ref => exact guarded_refl _
  | opt inner =>
      refine .next _ fun present => ?_
      split
      · exact hskip inner
      · exact guarded_refl _
  | vec inner =>
      refine (hcount inner).bind fun n => .next _ fun item => ?_
      split
      · exact guarded_refl _
      · exact guarded_repeatSkip (hskip inner) n
  | record fields => exact guarded_forM (fun field => hskip field.2) fields
  | variant tags => exact .next _ fun tag => hskip tag.2

theorem guarded_presentFields (hread : ∀ path a e, Guarded E (read path a e) (read' path a e))
    {expecteds fields : List (Label × Ty)} :
    Guarded E (presentFields ⟨limits, actual, expected⟩ path read skip expecteds fields)
      (presentFields ⟨limits', actual, expected⟩ path read' skip' expecteds fields) := by
  induction fields with
  | nil => exact guarded_refl _
  | cons field fields ih =>
      rw [presentFields, presentFields]
      split
      · exact (hread _ _ _).bind fun v => ih.bind fun rest => guarded_refl _
      · exact (hskip _).bind fun _ => ih

omit hskip in
/-- What fills the fields that are left out is no matter of the limits. -/
theorem completeFields_limits {present : List (Nat × Value)} {place : Nat}
    {fields : List (Label × Ty)} :
    completeFields ⟨limits, actual, expected⟩ path present place fields =
      completeFields ⟨limits', actual, expected⟩ path present place fields := by
  induction fields generalizing place with
  | nil => rfl
  | cons field fields ih => rw [completeFields, completeFields, ih]

/-- One step of a reader is guarded if the reading and the skipping of parts is. -/
theorem guarded_readShapes
    (hcount : ∀ element, Guarded E (count limits actual element) (count limits' actual element))
    (hread : ∀ path a e, Guarded E (read path a e) (read' path a e)) (a e : Ty) :
    Guarded E (readShapes ⟨limits, actual, expected⟩ read skip path a e)
      (readShapes ⟨limits', actual, expected⟩ read' skip' path a e) := by
  unfold readShapes
  split
  · exact (hskip a).bind fun _ => guarded_refl _
  · exact guarded_refl _
  · refine .next _ fun present => ?_
    split
    · exact (hread _ _ _).bind fun v => guarded_refl _
    · exact guarded_refl _
  · exact (hread _ _ _).bind fun v => guarded_refl _
  · exact guarded_refl _
  · exact guarded_refl _
  · exact guarded_refl _
  · exact guarded_refl _
  · next inner inner' =>
      refine (hcount inner).bind fun n => .next _ fun item => ?_
      have hitems := guarded_repeatRead
        (fun i => hread (path.push (toString i)) inner inner') 0 [] n
      split
      · refine .next _ fun item' => ?_
        split
        · exact guarded_refl _
        · exact hitems.bind fun items => guarded_refl _
      · exact hitems.bind fun items => guarded_refl _
  · refine (guarded_presentFields hskip hread).bind fun present => ?_
    rw [completeFields_limits]
    exact guarded_refl _
  · refine .next _ fun tag => ?_
    split
    · exact (hread _ _ _).bind fun v => guarded_refl _
    · exact guarded_refl _
  · exact guarded_refl _

end Shapes

/-! ### Values -/

section Levels

variable (hdeep : E (tooDeep limits)) (hle : levels ≤ levels')

include hdeep hle

theorem guarded_skip
    (hcount : ∀ element, Guarded E (count limits t element) (count limits' t element)) (ty : Ty) :
    Guarded E (skip limits t path levels ty) (skip limits' t path levels' ty) := by
  induction levels generalizing levels' ty with
  | zero => exact guarded_throw hdeep _
  | succ levels ih =>
      obtain ⟨more, rfl⟩ := Nat.exists_eq_add_of_lt hle
      exact .next _ fun a => guarded_skipShape hcount (fun ty => ih (by omega) ty) a

theorem guarded_read
    (hcount : ∀ element, Guarded E (count limits actual element) (count limits' actual element))
    (path : Path) (a e : Ty) : Guarded E (read ⟨limits, actual, expected⟩ levels path a e)
      (read ⟨limits', actual, expected⟩ levels' path a e) := by
  induction levels generalizing levels' path a e with
  | zero => exact guarded_throw hdeep _
  | succ levels ih =>
      obtain ⟨more, rfl⟩ := Nat.exists_eq_add_of_lt hle
      have hle : levels ≤ levels + more := levels.le_add_right more
      refine .next _ fun a' => .next _ fun e' => ?_
      exact guarded_readShapes (fun ty => guarded_skip hdeep hle hcount ty) hcount
        (fun path a e => ih hle path a e) a' e'

end Levels

/-! ### The length of a vector -/

/-- Whether all fields pass a test, for two tests. -/
theorem sameOr_allM {ok ok' : Ty → Except CodecError Bool} (h : ∀ ty, SameOr E (ok ty) (ok' ty))
    (fields : List (Label × Ty)) :
    SameOr E (fields.allM fun field => ok field.2) (fields.allM fun field => ok' field.2) := by
  induction fields with
  | nil => exact .refl _
  | cons field fields ih =>
      refine (h field.2).bind fun passed => ?_
      cases passed with
      | false => exact .refl _
      | true => exact ih

/-- Whether values of a type take no bytes does not depend on how deep a reader may look, if it may
look deep enough. -/
theorem sameOr_isZeroSized (hdeep : E (tooDeep limits)) (hle : levels ≤ levels') (ty : Ty) :
    SameOr E (isZeroSized limits t levels ty) (isZeroSized limits' t levels' ty) := by
  induction levels generalizing levels' ty with
  | zero => exact .error hdeep
  | succ levels ih =>
      obtain ⟨more, rfl⟩ := Nat.exists_eq_add_of_lt hle
      rw [isZeroSized, isZeroSized]
      split
      · exact .refl _
      · exact .refl _
      · exact .refl _
      · exact sameOr_allM (fun ty => ih (by omega) ty) _
      · exact .refl _

/-- Under a stricter limit as many items are counted, or the limit is exceeded. -/
theorem guarded_count (h : limits.Within limits') (element : Ty) :
    Guarded limits.Exceeded (count limits t element) (count limits' t element) := by
  have hle : limits.depth + 1 ≤ limits'.depth + 1 := Nat.succ_le_succ h.depth
  unfold count
  rcases sameOr_isZeroSized (t := t) Limits.Exceeded.depth hle element with hsize | ⟨e, he, hsize⟩
  · rw [hsize]
    cases isZeroSized limits' t (limits'.depth + 1) element with
    | error e => exact guarded_refl _
    | ok zeroSized =>
        cases zeroSized with
        | false => exact guarded_refl _
        | true =>
            refine .next Reader.position fun start => .next _ fun n => ?_
            by_cases hn : n.val ≤ limits.zeroSized
            · simp only [if_pos hn, if_pos (hn.trans h.zeroSized)]
              exact guarded_refl _
            · simp only [if_neg hn]
              exact guarded_throw (.zeroSized start n.val) _
  · rw [hsize]
    exact guarded_throw he _

end Values

/-! ### The header -/

namespace Header

variable {limits limits' : Limits}

theorem guarded_tableLength (h : limits.Within limits') :
    Guarded limits.Exceeded (tableLength limits) (tableLength limits') := by
  refine .next _ fun start => .next _ fun declared => ?_
  by_cases hlong : limits.tableLen < declared.val
  · simp only [if_pos hlong]
    exact guarded_throw_bind (.tableLen declared.val) _
  · have hlong' : ¬ limits'.tableLen < declared.val := by
      have := h.tableLen
      omega
    simp only [if_neg hlong, if_neg hlong']
    exact guarded_refl _

theorem guarded_read (h : limits.Within limits') :
    Guarded limits.Exceeded (read limits) (read limits') :=
  .next _ fun _ => (guarded_tableLength h).bind fun _ => guarded_refl _

end Header

end Colloquy
