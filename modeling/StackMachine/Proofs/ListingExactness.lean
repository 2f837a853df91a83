import StackMachine.Proofs.DirectExecution

/-!
# Which code has a listing

Nothing in code marks where an instruction starts, and an immediate may hold any bytes.  Still code
can be cut into instructions in one way at most: the opcode at the front fixes how many bytes belong
to it, so no encoding is the beginning of another one.

* `reads_iff`: decoding from a place on, again and again, reads a list of instructions exactly if
  the code goes on with their encodings;
* `encode_injective`: a list of instructions can be recovered from its code;
* `StopsAt.greatest`: code without listing is read up to its last boundary, and what stands there
  is a byte that is no opcode, or an opcode without the whole of its immediate.
-/

namespace StackMachine.Listing

/-- Decoding at `start`, and then behind each instruction that was decoded, reads these instructions
and comes to `stop`. -/
inductive Reads (code : List UInt8) : Nat → List Instruction → Nat → Prop
  | nil {start : Nat} : Reads code start [] start
  | cons {start next stop : Nat} {i : Instruction} {is : List Instruction}
      (hd : Instruction.decodeAt code start = .ok (i, next)) (hr : Reads code next is stop) :
      Reads code start (i :: is) stop

@[simp] theorem encode_cons (i : Instruction) (is : List Instruction) :
    encode (i :: is) = i.encode ++ encode is := rfl

theorem length_encode_cons (i : Instruction) (is : List Instruction) :
    (encode (i :: is)).length = i.size + (encode is).length := by
  rw [encode_cons, List.length_append, Instruction.length_encode]

/-! ## Reading encodings -/

/-- What was decoded is an encoding, and the next instruction starts behind it. -/
theorem drop_of_decodeAt {code : List UInt8} {k next : Nat} {i : Instruction}
    (h : Instruction.decodeAt code k = .ok (i, next)) :
    code.drop k = i.encode ++ code.drop next := by
  unfold Instruction.decodeAt at h
  split at h
  · exact absurd h (by simp)
  · rename_i j rest hr
    obtain ⟨rfl, rfl⟩ := Prod.mk.inj (Except.ok.inj h)
    have he := Instruction.eq_encode_append hr
    rw [← List.drop_drop, he, List.drop_left' (Instruction.length_encode j)]

/-- Decoding reads instructions exactly if the code goes on with their encodings. -/
theorem reads_iff {code : List UInt8} {start stop : Nat} {is : List Instruction} :
    Reads code start is stop ↔
      code.drop start = encode is ++ code.drop stop ∧ stop = start + (encode is).length := by
  constructor
  · intro h
    induction h with
    | nil => exact ⟨rfl, rfl⟩
    | @cons start next stop i is hd hr ih =>
      obtain ⟨hn, rfl⟩ := ih
      obtain ⟨rfl, _⟩ := next_of_decodeAt hd
      refine ⟨?_, ?_⟩
      · rw [drop_of_decodeAt hd, hn, encode_cons, List.append_assoc]
      · rw [length_encode_cons, Nat.add_assoc]
  · rintro ⟨h, rfl⟩
    induction is generalizing start with
    | nil => exact .nil
    | cons i is ih =>
      rw [length_encode_cons, ← Nat.add_assoc] at h ⊢
      rw [encode_cons, List.append_assoc] at h
      have hnext : code.drop (start + i.size) =
          encode is ++ code.drop (start + i.size + (encode is).length) := by
        rw [← List.drop_drop, h, List.drop_left' i.length_encode]
      exact .cons (decodeAt_of_drop h) (ih hnext)

/-- A list of instructions can be recovered from its code. -/
theorem encode_injective {is js : List Instruction} (h : encode is = encode js) : is = js := by
  have hi := instructions_encode 0 is
  rw [h, instructions_encode] at hi
  exact (Except.ok.inj hi).symm

/-- The code of a list of instructions is read as that list, and as no other. -/
theorem reads_encode_iff {is js : List Instruction} :
    Reads (encode is) 0 js (encode is).length ↔ js = is := by
  rw [reads_iff, List.drop_length, List.append_nil, List.drop_zero, Nat.zero_add]
  constructor
  · rintro ⟨h, _⟩
    exact (encode_injective h).symm
  · rintro rfl
    exact ⟨rfl, rfl⟩

/-- Code has a listing exactly if it is the code of some instructions, and then these are listed. -/
theorem disassemble_eq_ok_iff {code : List UInt8} {text : String} :
    disassemble code = .ok text ↔
      ∃ is, code = encode is ∧ text = String.ofList (is.flatMap fun i => i.text ++ ['\n']) := by
  constructor
  · intro h
    obtain ⟨is, hi, rfl⟩ := Result.map_eq_ok_iff.1 h
    exact ⟨is, eq_encode_of_instructions hi, rfl⟩
  · rintro ⟨is, rfl, rfl⟩
    exact Result.map_eq_ok_iff.2 ⟨is, instructions_encode 0 is, rfl⟩

/-! ## Where reading stops -/

variable {code : List UInt8} {e : Error} {k start : Nat}

theorem StopsAt.decodeAt_eq (h : StopsAt code e k start) :
    k < code.length ∧ Instruction.decodeAt code k = .error e := by
  induction h with
  | here hk hd => exact ⟨hk, hd⟩
  | later hs hd hn ih => exact ih

theorem StopsAt.boundary (h : StopsAt code e k start) (hs : Boundary code start) :
    Boundary code k := by
  induction h with
  | here hk hd => exact hs
  | later _ hd hn ih => exact ih (hs.of_decodeAt hd)

/-- The place where reading stops is the last boundary: from every boundary on, reading stops
there. -/
theorem StopsAt.greatest (h : StopsAt code e k 0) {j : Nat} (hj : Boundary code j) : j ≤ k := by
  have hstop : StopsAt code e k j := by
    induction hj with
    | start => exact h
    | next hk hd ih => exact ih.of_decodeAt hd
  exact hstop.le

/-- What cannot be decoded is a byte that is no opcode, or an opcode whose immediate the code does
not hold as a whole. -/
theorem error_of_decodeAt (hk : k < code.length) (hd : Instruction.decodeAt code k = .error e) :
    ((∀ o : Opcode, o.byte ≠ code[k]) ∧ e = .undefinedOpcode code[k] k) ∨
      ∃ o : Opcode, o.byte = code[k] ∧ code.length - k - 1 < o.width ∧
        e = .truncated (k + 1) o.width (code.length - k - 1) := by
  cases ho : Opcode.ofByte? code[k] with
  | none =>
    rw [Reference.decodeAt_of_undefined hk ho] at hd
    refine .inl ⟨?_, (Except.error.inj hd).symm⟩
    intro o he
    rw [← he, Opcode.ofByte?_byte] at ho
    exact absurd ho (by simp)
  | some o =>
    rw [Reference.decodeAt_of_opcode hk ho] at hd
    have hi := Result.map_eq_error_iff.1 hd
    unfold Reference.immediate at hi
    split at hi
    · exact absurd hi (by simp)
    · refine .inr ⟨o, (Opcode.ofByte?_eq_some_iff.1 ho).symm, by omega, ?_⟩
      rw [Nat.sub_sub]
      exact (Except.error.inj hi).symm

/-- **Exactly the concatenations of encodings have a listing.**

* The code of a list of instructions is read as that list and as no other.
* Code has a listing exactly if it is the code of some list of instructions.  There is one such list
  at most, and the listing shows its instructions in order, each with a line end.
* Any other code is read up to its last boundary, and the error names what stands there: a byte that
  is no opcode, or an opcode with fewer bytes after it than its immediate has. -/
theorem disassemble_exact :
    (∀ is js, Reads (encode is) 0 js (encode is).length ↔ js = is) ∧
      ∀ code,
        (∀ text, disassemble code = .ok text ↔
          ∃ is, code = encode is ∧ text = String.ofList (is.flatMap fun i => i.text ++ ['\n'])) ∧
        (∀ is js, code = encode is → code = encode js → is = js) ∧
        ((∃ is, code = encode is) ∨
          ∃ k b, code[k]? = some b ∧ (Boundary code k ∧ ∀ j, Boundary code j → j ≤ k) ∧
            (((∀ o : Opcode, o.byte ≠ b) ∧ disassemble code = .error (.undefinedOpcode b k)) ∨
              ∃ o : Opcode, o.byte = b ∧ code.length - k - 1 < o.width ∧
                disassemble code = .error (.truncated (k + 1) o.width (code.length - k - 1)))) := by
  refine ⟨fun is js => reads_encode_iff, ?_⟩
  intro code
  refine ⟨fun text => disassemble_eq_ok_iff, ?_, ?_⟩
  · intro is js hi hj
    exact encode_injective (hi.symm.trans hj)
  · cases hd : disassemble code with
    | ok text =>
      obtain ⟨is, hi, _⟩ := disassemble_eq_ok_iff.1 hd
      exact .inl ⟨is, hi⟩
    | error e =>
      obtain ⟨k, hk⟩ := disassemble_eq_error_iff.1 hd
      obtain ⟨hlt, hat⟩ := hk.decodeAt_eq
      refine .inr ⟨k, code[k], List.getElem?_eq_getElem hlt,
        ⟨hk.boundary .start, fun j hj => hk.greatest hj⟩, ?_⟩
      rcases error_of_decodeAt hlt hat with ⟨ho, rfl⟩ | ⟨o, ho, hw, rfl⟩
      · exact .inl ⟨ho, rfl⟩
      · exact .inr ⟨o, ho, hw, rfl⟩

/-- Code whose first immediate looks like a return and whose second one is cut short: it is the code
of no list of instructions, and its last boundary is where the second push starts. -/
theorem disassemble_exact_truncated :
    let code : List UInt8 := [0x01, 0x30, 0x02, 1, 2]
    disassemble code = .error (.truncated 3 8 2) ∧ (∀ is, code ≠ encode is) ∧
      Boundary code 2 ∧ ∀ j, Boundary code j → j ≤ 2 := by
  intro code
  have hd : disassemble code = .error (.truncated 3 8 2) := by
    cbv
  obtain ⟨hok, _, hstop⟩ := disassemble_exact.2 code
  have hne : ∀ is, code ≠ encode is := by
    intro is hi
    have hl := (hok _).2 ⟨is, hi, rfl⟩
    rw [hd] at hl
    exact absurd hl (by simp)
  refine ⟨hd, hne, ?_⟩
  rcases hstop with ⟨is, hi⟩ | ⟨k, b, _, hk, ⟨_, he⟩ | ⟨o, _, _, he⟩⟩
  · exact absurd hi (hne is)
  · rw [hd] at he
    exact absurd he (by simp)
  · rw [hd] at he
    obtain ⟨hk2, _⟩ := Error.truncated.inj (Except.error.inj he)
    obtain rfl : k = 2 := (Nat.succ.inj hk2).symm
    exact hk

end StackMachine.Listing
