import Colloquy.Proofs.Message.Skipping

/-!
# A decoder and its message

A decoder counts the arguments that it has been asked for, and its reader stands somewhere in their
bytes. As long as every call has been answered with a value the two agree: the decoder is what the
one that has just been opened becomes when it passes over as many arguments (`passed_of_answers`),
so the next call answers what it would answer there.

A call that fails counts its argument as well, but it leaves the reader where it has stopped. After
a mismatch of types that is in front of the argument that has just been counted
(`next_of_mismatch`), and the next call reads the bytes of one argument as the value of another
(`not_inStep_afterMismatch`).
-/

namespace Colloquy

namespace Decoder

/-- A call for the next argument: as a type of a table, or as the type that the message declares. -/
inductive Call where
  | expecting (table : Table) (expected : Ty)
  | selfDescribed

/-- What a call answers: a value, with its type if the message has been asked for it. -/
abbrev Answer := Except CodecError (Option Ty × Value)

/-- Makes a call; answers what the decoder has become, also on failure. -/
def perform (d : Decoder) : Call → Answer × Decoder
  | .expecting table expected =>
    let (v, d') := d.next table expected
    (v.map fun v => (none, v), d')
  | .selfDescribed =>
    let (v, d') := d.nextSelfDescribed
    (v.map fun (ty, v) => (some ty, v), d')

/-- Makes calls one after the other, and goes on after those that fail. -/
def performAll (d : Decoder) : List Call → List Answer × Decoder
  | [] => ([], d)
  | call :: rest =>
    let (answer, d') := d.perform call
    let (answers, d'') := d'.performAll rest
    (answer :: answers, d'')

/-- Passes over the bytes of the next arguments. -/
def passed (d : Decoder) (count : Nat) : Except CodecError Decoder :=
  match (d.pending.take count).forM (Values.skip d.limits d.header.table .root d.limits.depth)
      d.cursor with
  | .ok () cursor => .ok { d with cursor, nextArg := d.nextArg + count }
  | .error e _ => .error e

variable {d d' : Decoder} {ty : Ty} {tys : List Ty} {call : Call} {a : Option Ty × Value}

theorem performAll_append (calls more : List Call) : d.performAll (calls ++ more) =
    ((d.performAll calls).1 ++ ((d.performAll calls).2.performAll more).1,
      ((d.performAll calls).2.performAll more).2) := by
  induction calls generalizing d with
  | nil => rfl
  | cons call calls ih => simp only [List.cons_append, performAll, ih]

theorem length_performAll (calls : List Call) : (d.performAll calls).1.length = calls.length := by
  induction calls generalizing d with
  | nil => rfl
  | cons call calls ih => simp only [performAll, List.length_cons, ih]

/-! ### One call -/

/-- A call that succeeds has read the first of the arguments left, from where the decoder stands. -/
theorem next_eq_ok {table : Table} {expected : Ty} {v : Value} (hpending : d.pending = ty :: tys)
    (h : d.next table expected = (.ok v, d')) : ∃ cursor, d' = d.after cursor ∧
      Values.read ⟨d.limits, d.header.table, table⟩ d.limits.depth (.argument d.nextArg) ty expected
        d.cursor = .ok v cursor := by
  rw [next, getElem?_of_pending hpending] at h
  simp only at h
  split at h
  · cases h
  · unfold step at h
    simp only at h
    split at h
    · next w cursor hread =>
        cases h
        exact ⟨cursor, rfl, hread⟩
    · cases h

/-- A mismatch is found before the reader moves, but after the argument has been counted. -/
theorem next_of_mismatch {table : Table} {expected : Ty} {m : SubtypeError}
    (hpending : d.pending = ty :: tys)
    (h : Subtype.checkAt (.argument d.nextArg) d.header.table ty table expected = .error m) :
    d.next table expected = (.error (.subtype m), d.after d.cursor) := by
  rw [next, getElem?_of_pending hpending]
  simp only [h]
  rfl

/-- A call that is answered with a value passes over the bytes of one argument. -/
theorem skip_of_perform (hpending : d.pending = ty :: tys) (h : d.perform call = (.ok a, d')) :
    ∃ cursor, d' = d.after cursor ∧
      Values.skip d.limits d.header.table .root d.limits.depth ty d.cursor = .ok () cursor := by
  cases call with
  | expecting table expected =>
      cases hnext : d.next table expected with
      | mk result d₁ =>
          rw [perform, hnext] at h
          obtain ⟨hresult, rfl⟩ := Prod.mk.injEq .. ▸ h
          obtain ⟨v, rfl, -⟩ := map_eq_ok_iff.1 hresult
          obtain ⟨cursor, hd, hread⟩ := next_eq_ok hpending hnext
          exact ⟨cursor, hd, Values.skip_of_read hread⟩
  | selfDescribed =>
      cases hnext : d.nextSelfDescribed with
      | mk result d₁ =>
          rw [perform, hnext] at h
          obtain ⟨hresult, rfl⟩ := Prod.mk.injEq .. ▸ h
          obtain ⟨typed, rfl, -⟩ := map_eq_ok_iff.1 hresult
          obtain ⟨-, cursor, hd, hread⟩ := nextSelfDescribed_eq_ok hpending hnext
          exact ⟨cursor, hd, Values.skip_of_read hread⟩

/-! ### Calls in a row -/

theorem passed_zero : d.passed 0 = .ok d := rfl

theorem passed_succ (hpending : d.pending = ty :: tys) {cursor : Cursor} {count : Nat}
    (h : Values.skip d.limits d.header.table .root d.limits.depth ty d.cursor = .ok () cursor) :
    d.passed (count + 1) = (d.after cursor).passed count := by
  have hrest : (d.after cursor).pending = tys := drop_of_pending hpending
  have hforM : ((ty :: tys.take count).forM
      (Values.skip d.limits d.header.table .root d.limits.depth)) d.cursor =
        (tys.take count).forM (Values.skip d.limits d.header.table .root d.limits.depth) cursor :=
    Reader.bind_of_ok h
  unfold passed
  rw [hpending, hrest, List.take_succ_cons, hforM]
  simp only [after, Nat.add_assoc, Nat.add_comm 1]

/-- As long as every call is answered with a value the decoder is what it becomes by passing over
arguments. -/
theorem passed_of_answers {calls : List Call} (hle : calls.length ≤ d.pending.length)
    (hok : ∀ answer ∈ (d.performAll calls).1, ∃ a, answer = .ok a) :
    d.passed calls.length = .ok (d.performAll calls).2 := by
  induction calls generalizing d with
  | nil => exact passed_zero
  | cons call calls ih =>
      cases hpending : d.pending with
      | nil => simp [hpending] at hle
      | cons ty tys =>
          obtain ⟨⟨a, ha⟩, hok⟩ := List.forall_mem_cons.1 hok
          have hfirst : d.perform call = (.ok a, (d.perform call).2) := Prod.ext ha rfl
          obtain ⟨cursor, hd, hskip⟩ := skip_of_perform hpending hfirst
          rw [List.length_cons, passed_succ hpending hskip, ← hd]
          refine ih ?_ hok
          have hrest : (d.perform call).2.pending = tys := by rw [hd]; exact drop_of_pending hpending
          rw [hpending] at hle
          rw [hrest]
          exact Nat.le_of_succ_le_succ hle

variable {limits : Limits} {bytes : List UInt8} {before after' : List Call}

/-- As long as every call has been answered with a value, a call for an argument of the message is
answered as it would be by a decoder that has been moved past the arguments before. -/
theorem answer_of_answers (hopen : Decoder.open limits bytes = .ok d)
    (hlt : before.length < d.header.args.length)
    (hok : ∀ answer ∈ (d.performAll before).1, ∃ a, answer = .ok a) :
    ∃ moved, d.passed before.length = .ok moved ∧
      (d.performAll (before ++ call :: after')).1[before.length]? = some (moved.perform call).1 := by
  have hpending : d.pending = d.header.args := by
    simp [pending, (open_eq_ok_iff.1 hopen).2.2]
  refine ⟨(d.performAll before).2, passed_of_answers (hpending ▸ hlt.le) hok, ?_⟩
  rw [performAll_append, List.getElem?_append_right (length_performAll before).le,
    length_performAll, Nat.sub_self]
  rfl

/-- A message of two numbers, five and seven. -/
def numbersMessage : List UInt8 :=
  [0x44, 0x49, 0x44, 0x4c, 0x00, 0x02, 0x7d, 0x7d, 0x05, 0x07]

def numbersDecoder : Decoder :=
  ⟨⟨[0x05, 0x07], 8⟩, ⟨.empty, [.prim .nat, .prim .nat]⟩, .default, 0⟩

theorem answer_of_answers_numbers :
    ∃ moved, numbersDecoder.passed 1 = .ok moved ∧
      (numbersDecoder.performAll [.selfDescribed, .expecting .empty (.opt (.prim .nat))]).1[1]? =
        some (moved.perform (.expecting .empty (.opt (.prim .nat)))).1 := by
  have hopen : Decoder.open .default numbersMessage = .ok numbersDecoder := rfl
  have hlt : [Call.selfDescribed].length < numbersDecoder.header.args.length := by decide
  refine answer_of_answers hopen hlt (fun answer hanswer => ?_)
  exact ⟨_, List.mem_singleton.1 hanswer⟩

/-- After a mismatch the next argument is read from the bytes of the one before: the second number
reads as five. -/
theorem not_inStep_afterMismatch :
    ¬ ∀ (limits : Limits) (bytes : List UInt8) (d : Decoder) (before after : List Call)
      (call : Call) (a : Option Ty × Value), Decoder.open limits bytes = .ok d →
        before.length < d.header.args.length →
        (d.performAll (before ++ call :: after)).1[before.length]? = some (.ok a) →
        ∃ moved, d.passed before.length = .ok moved ∧ (moved.perform call).1 = .ok a := by
  intro h
  obtain ⟨moved, hmoved, hanswer⟩ := h .default numbersMessage
    numbersDecoder [.expecting .empty (.prim .text)] [] (.expecting .empty (.prim .nat))
    (none, .scalar (.nat ⟨5, by decide⟩)) rfl (by decide) rfl
  cases hmoved
  cases hanswer

end Decoder

end Colloquy
