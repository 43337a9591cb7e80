import Colloquy.Proofs.Message.Encoding

/-!
# Arguments that fail

An argument may fail anywhere inside its type or its value, and an encoder does not take back what
it has written of it by then: places that were set aside and have no body, records of types that
were never written, half of a value. What is said here holds for every such remainder
(`Encoder.LeftAs`).

The first failure splits the calls on an encoder in two (`Encoder.Calls.ends`): the arguments before
it have been added, and every call after it is refused. So either all arguments have been added, and
the message is the one that is written in one go, or there is no message.
-/

namespace Colloquy

namespace Encoder

/-- What a call for adding an argument answers. -/
abbrev Answer := Except CodecError Unit

/-- The answer to every call after the argument at a position has failed. -/
def refusal (k : Nat) : Answer :=
  .error (.value (.incompleteMessage k))

/-- Adds arguments one after the other and goes on after those that fail; answers every call. -/
def addEach (e : Encoder) : List (Ty × Value) → List Answer × Encoder
  | [] => ([], e)
  | (ty, v) :: rest =>
    let (answer, m) := e.arg ty v
    let (answers, d) := m.addEach rest
    (answer :: answers, d)

/-- Whether `d` is the encoder `e`, except that the types and the values of an encoder that has
failed may be in any state. -/
structure LeftAs (e d : Encoder) : Prop where
  table_eq : d.table = e.table
  args_eq : d.args = e.args
  failed_eq : d.failed = e.failed
  eq_of_not_failed : e.failed = none → d = e

/-- Calls in a row with their answers, and what the encoder has become after them. After each call
what a failed argument has written may be anything. -/
inductive Calls : Encoder → List (Ty × Value) → List Answer → Encoder → Prop where
  | nil (e : Encoder) : Calls e [] [] e
  | cons {e m d : Encoder} {ty : Ty} {v : Value} {args : List (Ty × Value)}
      {answers : List Answer} : LeftAs (e.arg ty v).2 m → Calls m args answers d →
      Calls e ((ty, v) :: args) ((e.arg ty v).1 :: answers) d

variable {t : Table} {e d m : Encoder} {ty : Ty} {v : Value} {args : List (Ty × Value)}
  {answers : List Answer} {k : Nat}

theorem LeftAs.refl (e : Encoder) : LeftAs e e :=
  ⟨rfl, rfl, rfl, fun _ => rfl⟩

theorem LeftAs.trans (h : LeftAs e m) (h' : LeftAs m d) : LeftAs e d := by
  refine ⟨h'.table_eq.trans h.table_eq, h'.args_eq.trans h.args_eq,
    h'.failed_eq.trans h.failed_eq, fun hnone => ?_⟩
  rw [h'.eq_of_not_failed (h.failed_eq.trans hnone), h.eq_of_not_failed hnone]

theorem LeftAs.argCount_eq (h : LeftAs e d) : d.argCount = e.argCount := by
  rw [argCount, argCount, h.args_eq]

/-- The calls as they are made, with nothing changed in between. -/
theorem calls_addEach (e : Encoder) (args : List (Ty × Value)) :
    Calls e args (e.addEach args).1 (e.addEach args).2 := by
  induction args generalizing e with
  | nil => exact .nil e
  | cons arg args ih => exact .cons (.refl _) (ih _)

/-! ### One call -/

theorem arg_of_failed (h : e.failed = some k) : e.arg ty v = (refusal k, e) := by
  rw [arg, h]
  rfl

theorem arg_of_write_ok (h : e.failed = none) (hwrite : e.write ty v = .ok m) :
    e.arg ty v = (.ok (), m) := by
  rw [arg, h]
  simp only [hwrite]

theorem arg_of_write_error {err : CodecError} (h : e.failed = none)
    (hwrite : e.write ty v = .error err) :
    e.arg ty v = (.error err, { e with failed := some e.argCount }) := by
  rw [arg, h]
  simp only [hwrite]

theorem failed_of_write (h : e.write ty v = .ok m) : m.failed = e.failed := by
  obtain ⟨code, types, written, -, -, rfl⟩ := write_eq_ok h
  rfl

theorem argCount_of_write (h : e.write ty v = .ok m) : m.argCount = e.argCount + 1 := by
  obtain ⟨code, types, written, -, -, rfl⟩ := write_eq_ok h
  exact List.length_append

/-! ### Calls in a row -/

/-- An encoder that has failed refuses every call and stays as it is. -/
theorem Calls.refused (h : Calls e args answers d) (hfailed : e.failed = some k) :
    answers = List.replicate args.length (refusal k) ∧ LeftAs e d := by
  induction h with
  | nil e => exact ⟨rfl, .refl e⟩
  | @cons e m d ty v args answers hleft _ ih =>
      rw [arg_of_failed hfailed] at hleft ⊢
      obtain ⟨rfl, hrest⟩ := ih (hleft.failed_eq.trans hfailed)
      exact ⟨rfl, hleft.trans hrest⟩

/-- Calls on an encoder that has not failed: all arguments are added, or the ones before the first
that fails. The induction is on the calls; from the first failure on they are refused. -/
theorem Calls.ends (h : Calls e args answers d) (hfailed : e.failed = none) :
    (answers = List.replicate args.length (.ok ()) ∧ e.addAll args = .ok d ∧
        d.failed = none ∧ d.argCount = e.argCount + args.length) ∨
      ∃ added after err, added + after + 1 = args.length ∧
        answers = List.replicate added (.ok ()) ++
          .error err :: List.replicate after (refusal (e.argCount + added)) ∧
        e.addAll args = .error err ∧ d.failed = some (e.argCount + added) ∧
        d.argCount = e.argCount + added := by
  induction h with
  | nil e => exact .inl ⟨rfl, rfl, hfailed, rfl⟩
  | @cons e m d ty v args answers hleft hrest ih =>
      rw [addAll_cons hfailed]
      cases hwrite : e.write ty v with
      | ok written =>
          have hwritten : written.failed = none := (failed_of_write hwrite).trans hfailed
          have hcount := argCount_of_write hwrite
          rw [arg_of_write_ok hfailed hwrite] at hleft ⊢
          obtain rfl : m = written := hleft.eq_of_not_failed hwritten
          rw [ok_bind]
          rcases ih hwritten with ⟨rfl, hall, hd, hargs⟩ | ⟨added, after, err, hlength, rfl, hall,
            hd, hargs⟩
          · refine .inl ⟨rfl, hall, hd, ?_⟩
            rw [hargs, hcount, List.length_cons]
            omega
          · have hposition : m.argCount + added = e.argCount + (added + 1) := by omega
            rw [hposition] at hd hargs ⊢
            refine .inr ⟨added + 1, after, err, ?_, rfl, hall, hd, hargs⟩
            rw [List.length_cons]
            omega
      | error err =>
          rw [arg_of_write_error hfailed hwrite] at hleft ⊢
          obtain ⟨rfl, hd⟩ := hrest.refused hleft.failed_eq
          exact .inr ⟨0, args.length, err, by simp, rfl, rfl,
            hd.failed_eq.trans hleft.failed_eq, hd.argCount_eq.trans hleft.argCount_eq⟩

/-- The message of an encoder that has not failed is the one of the arguments that were added. -/
theorem finish_of_addAll (hall : (new t).addAll args = .ok e) (hfailed : e.failed = none) :
    ∃ bytes, e.finish = .ok bytes ∧ encodeArgs t args = .ok bytes := by
  refine ⟨Header.magic ++ e.types.bytes ++ TypeSection.counted e.args ++ e.values, ?_, ?_⟩
  · rw [finish, hfailed]
  · rw [encodeArgs, hall, ok_bind, finish, hfailed]

theorem finish_of_failed (h : e.failed = some k) :
    e.finish = .error (.value (.incompleteMessage k)) := by
  rw [finish, h]

/-- In a list of answers the failure behind a number of successes is the first one. -/
theorem eq_of_first_error {added : Nat} {err err' : CodecError} {rest : List Answer}
    (h : (List.replicate added (.ok ()) ++ .error err :: rest)[k]? = some (.error err'))
    (hbefore : ∀ j < k, (List.replicate added (.ok ()) ++ .error err :: rest : List Answer)[j]? =
      some (.ok ())) : k = added ∧ err' = err := by
  have hadded : (List.replicate added (.ok ()) ++ .error err :: rest : List Answer)[added]? =
      some (.error err) := by
    rw [List.getElem?_append_right (by simp)]
    simp
  rcases Nat.lt_trichotomy k added with hlt | rfl | hlt
  · rw [List.getElem?_append_left (by simpa using hlt), List.getElem?_replicate, if_pos hlt] at h
    cases h
  · rw [hadded] at h
    cases h
    exact ⟨rfl, rfl⟩
  · rw [hbefore added hlt] at hadded
    cases hadded

/-- If every call on a new encoder succeeds, the message is the one of its arguments; otherwise the
calls after the first that fails are refused, and so is the message. -/
theorem Calls.added_or_refused (h : Calls (new t) args answers e) :
    ((∀ answer ∈ answers, answer = .ok ()) → e.argCount = args.length ∧
      ∃ bytes, e.finish = .ok bytes ∧ encodeArgs t args = .ok bytes) ∧
    ∀ k err, answers[k]? = some (.error err) → (∀ j < k, answers[j]? = some (.ok ())) →
      encodeArgs t args = .error err ∧
      (∀ j, k < j → j < args.length → answers[j]? = some (refusal k)) ∧
      (∀ ty v, (e.arg ty v).1 = refusal k) ∧ e.argCount = k ∧
      e.finish = .error (.value (.incompleteMessage k)) := by
  have hnew : (new t).argCount = 0 := rfl
  rcases h.ends rfl with ⟨rfl, hall, hfailed, hcount⟩ | ⟨added, after, err, hlength, rfl, hall,
    hfailed, hcount⟩
  · refine ⟨fun _ => ⟨?_, finish_of_addAll hall hfailed⟩, fun k err hk _ => ?_⟩
    · rw [hcount, hnew, Nat.zero_add]
    · cases List.eq_of_mem_replicate (List.mem_of_getElem? hk)
  · refine ⟨fun hok => ?_, fun k err' hk hbefore => ?_⟩
    · cases hok (.error err) (by simp)
    · obtain ⟨rfl, rfl⟩ := eq_of_first_error hk hbefore
      rw [hnew, Nat.zero_add] at hfailed hcount ⊢
      refine ⟨?_, fun j hlt hj => ?_, fun ty v => ?_, hcount, finish_of_failed hfailed⟩
      · rw [encodeArgs, hall, error_bind]
      · obtain ⟨i, rfl⟩ := Nat.exists_eq_add_of_lt hlt
        rw [List.getElem?_append_right (by simp; omega), List.length_replicate,
          show k + i + 1 - k = i + 1 by omega, List.getElem?_cons_succ, List.getElem?_replicate,
          if_pos (by omega)]
      · rw [arg_of_failed hfailed]

/-- Three arguments; the second one is a vector whose second item is no number. -/
def brokenArgs : List (Ty × Value) :=
  [(.prim .nat, .scalar (.nat ⟨1, by decide⟩)),
    (.vec (.prim .nat), .vec [.scalar (.nat ⟨2, by decide⟩), .scalar (.bool true)]),
    (.prim .text, .scalar (.text "x"))]

/-- Why the second argument fails. -/
def brokenItem : CodecError :=
  .value (.kindMismatch ((Path.argument 1).push "1") "nat" "bool")

/-- An encoder after these arguments. The entry of the vector type is still there, and so are the
length of the vector and its first item. -/
def brokenEncoder : Encoder where
  table := .empty
  types := ⟨#[[0x6d, 0x7d]], [], [([0x6d, 0x7d], 0)]⟩
  args := [-3]
  values := [1, 2, 2]
  failed := some 1

theorem added_or_refused_broken :
    Calls (new .empty) brokenArgs [.ok (), .error brokenItem, refusal 1] brokenEncoder ∧
      encodeArgs .empty brokenArgs = .error brokenItem ∧ brokenEncoder.argCount = 1 ∧
      brokenEncoder.finish = .error (.value (.incompleteMessage 1)) := by
  have hleft : LeftAs ((new .empty).addEach (brokenArgs.take 2)).2 brokenEncoder :=
    ⟨rfl, rfl, rfl, nofun⟩
  have hrefused : Calls brokenEncoder (brokenArgs.drop 2) [refusal 1] brokenEncoder :=
    .cons (.refl _) (.nil _)
  have hcalls : Calls (new .empty) brokenArgs [.ok (), .error brokenItem, refusal 1]
      brokenEncoder := .cons (.refl _) (.cons hleft hrefused)
  obtain ⟨hencode, _, _, hcount, hfinish⟩ := hcalls.added_or_refused.2 1 brokenItem rfl (by
    intro j hj
    obtain rfl : j = 0 := by omega
    rfl)
  exact ⟨hcalls, hencode, hcount, hfinish⟩

end Encoder

end Colloquy
