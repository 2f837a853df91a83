import StackMachine.Proofs.Spelling

/-!
# No source is its own code

Code is bytes and a source is text in bytes, so one file can be read as both.  The bytes of a file
that assembles are the code of that source only if there are none (`eq_nil_of_assemble_self`).

The first instruction of the source decides this.  The code starts with its opcode's byte, and the
source would start with the character of that byte.  `STORE1` has the byte of a space, which stands
before a word and not in it; the byte of any other opcode is a character that stands in a word, but
at the start of no mnemonic.
-/

namespace StackMachine

namespace Text

/-- The line of a character behind spaces starts with the spaces and the character. -/
theorem exists_lines_spaces {c : Char} (hn : c ≠ '\n') (hr : c ≠ '\r') (k : Nat) (cs : List Char) :
    ∃ l ls, lines (List.replicate k ' ' ++ c :: cs) = (List.replicate k ' ' ++ c :: l) :: ls := by
  induction k with
  | zero => exact ⟨_, _, lines_cons hn hr cs⟩
  | succ k ih =>
    obtain ⟨l, ls, h⟩ := ih
    refine ⟨l, ls, ?_⟩
    rw [List.replicate_succ, List.cons_append, lines_cons (by decide) (by decide), h]
    rfl

namespace Utf8

variable {index : Nat} {bs : List UInt8} {cs : List Char}

/-- An ASCII byte is a character of its own. -/
theorem exists_of_decodeFrom_cons {b : UInt8} (hb : b.toNat < 0x80)
    (h : decodeFrom index (b :: bs) = .ok cs) :
    ∃ ds, decodeFrom (index + 1) bs = .ok ds ∧ cs = Char.ofNat b.toNat :: ds := by
  have hl : Lead.ofByte? b = some ⟨0, b.toNat, 0x80, 0xBF⟩ := if_pos hb
  rw [decodeFrom, hl] at h
  have hm : (decodeFrom (index + 1) bs).map (Char.ofNat b.toNat :: ·) = .ok cs := h
  cases hr : decodeFrom (index + 1) bs with
  | error e =>
    rw [hr] at hm
    exact absurd hm (by simp [Except.map])
  | ok ds =>
    rw [hr] at hm
    exact ⟨ds, rfl, (Except.ok.inj hm).symm⟩

theorem exists_of_decodeFrom_spaces {k : Nat}
    (h : decodeFrom index (List.replicate k 0x20 ++ bs) = .ok cs) :
    ∃ ds, decodeFrom (index + k) bs = .ok ds ∧ cs = List.replicate k ' ' ++ ds := by
  induction k generalizing index cs with
  | zero => exact ⟨cs, h, rfl⟩
  | succ k ih =>
    rw [List.replicate_succ, List.cons_append] at h
    obtain ⟨ds, hds, rfl⟩ := exists_of_decodeFrom_cons (by decide) h
    obtain ⟨es, hes, rfl⟩ := ih hds
    rw [Nat.add_right_comm] at hes
    exact ⟨es, hes, rfl⟩

end Utf8

end Text

namespace Assembly

/-- Spaces at the front of a text make no tokens. -/
theorem Token.scan_spaces (k column : Nat) (cs : List Char) :
    scan column (List.replicate k ' ' ++ cs) = scan (column + k) cs := by
  induction k generalizing column with
  | zero => rfl
  | succ k ih =>
    rw [List.replicate_succ, List.cons_append, scan_separator (by decide), ih, Nat.add_assoc,
      Nat.add_comm k]
    rfl

/-- A character of words that comes first but for spaces is the first of the first word. -/
theorem exists_words_of_spaces {c : Char} (hs : Token.isSeparator c = false)
    (hm : c ≠ Token.commentMark) (k : Nat) (l : List Char) :
    ∃ word ws, words (List.replicate k ' ' ++ c :: l) = String.ofList (c :: word) :: ws := by
  have hspaces : ∀ d ∈ List.replicate k ' ', (d != Token.commentMark) = true := by
    intro d hd
    rw [List.eq_of_mem_replicate hd]
    decide
  have hbefore : Token.beforeComment (List.replicate k ' ' ++ c :: l) =
      List.replicate k ' ' ++ c :: Token.beforeComment l := by
    rw [Token.beforeComment, List.takeWhile_append_of_pos hspaces, List.takeWhile_cons,
      if_pos (bne_iff_ne.2 hm)]
    rfl
  rw [words, Token.tokenize, hbefore, Token.scan_spaces, Token.scan_word hs]
  exact ⟨_, _, rfl⟩

theorem words_spaces (k : Nat) : words (List.replicate k ' ') = [] := by
  have hm : Token.commentMark ∉ List.replicate k ' ' := by
    intro h
    exact absurd (List.eq_of_mem_replicate h) (by decide)
  rw [words_eq_nil_iff, Token.tokenize, Token.beforeComment_of_not_mem hm,
    ← List.append_nil (List.replicate k ' '), Token.scan_spaces, Token.scan_nil]

/-- A text of spaces spells no instructions. -/
theorem eq_nil_of_spelled_spaces {k : Nat} {is : List Instruction}
    (h : Spelled (Text.lines (List.replicate k ' ')) is) : is = [] := by
  cases k with
  | zero =>
    cases h
    rfl
  | succ k =>
    have hn : '\n' ∉ List.replicate (k + 1) ' ' := by
      intro hmem
      exact absurd (List.eq_of_mem_replicate hmem) (by decide)
    rw [Text.lines_of_newline_not_mem (by simp) hn] at h
    exact Spelled.unique (.blank (words_spaces _) .nil) h

/-- The first word of a line that spells an instruction is the mnemonic. -/
theorem head?_words_of_spells {l : List Char} {i : Instruction} (h : Spells l i) :
    (words l).head? = some i.opcode.mnemonic := by
  unfold Spells at h
  split at h
  · rw [h]
    rfl
  · obtain ⟨literal, hw, _⟩ := h
    rw [hw]
    rfl

/-- If a text spells instructions, a character of words that comes first in it but for spaces starts a
mnemonic. -/
theorem exists_mnemonic_of_spelled {c : Char} {k : Nat} {cs : List Char} {is : List Instruction}
    (hn : c ≠ '\n') (hr : c ≠ '\r') (hs : Token.isSeparator c = false)
    (hm : c ≠ Token.commentMark) (h : Spelled (Text.lines (List.replicate k ' ' ++ c :: cs)) is) :
    ∃ o : Opcode, o.mnemonic.toList.head? = some c := by
  obtain ⟨l, ls, hl⟩ := Text.exists_lines_spaces hn hr k cs
  obtain ⟨word, ws, hw⟩ := exists_words_of_spaces hs hm k l
  rw [hl] at h
  cases h with
  | blank hblank _ =>
    rw [hblank] at hw
    exact absurd hw (by simp)
  | @line _ _ i _ hi _ =>
    have ho := head?_words_of_spells hi
    rw [hw, List.head?_cons, Option.some.injEq] at ho
    refine ⟨i.opcode, ?_⟩
    rw [← ho, String.toList_ofList, List.head?_cons]

/-- Code is bytes of `STORE1`, behind which comes nothing or the byte of another opcode. -/
theorem encode_cases (is : List Instruction) :
    ∃ k, Listing.encode is = List.replicate k 0x20 ∨
      ∃ (o : Opcode) (rest : List UInt8), o ≠ .store1 ∧
        Listing.encode is = List.replicate k 0x20 ++ o.byte :: rest := by
  induction is with
  | nil => exact ⟨0, .inl rfl⟩
  | cons i is ih =>
    by_cases hi : i.opcode = .store1
    · have he : Listing.encode (i :: is) = 0x20 :: Listing.encode is := by
        cases i with
        | store1 => rfl
        | _ => exact absurd hi (by simp [Instruction.opcode])
      obtain ⟨k, hk | ⟨o, rest, ho, hk⟩⟩ := ih
      · exact ⟨k + 1, .inl (by rw [he, hk, List.replicate_succ])⟩
      · exact ⟨k + 1, .inr ⟨o, rest, ho, by rw [he, hk, List.replicate_succ, List.cons_append]⟩⟩
    · exact ⟨0, .inr ⟨i.opcode, _, hi, rfl⟩⟩

/-- The characters that stand for opcodes other than `STORE1`: they can stand in words, but start no
mnemonic. -/
theorem byte_char_of_ne_store1 {o : Opcode} (ho : o ≠ .store1) :
    let c := Char.ofNat o.byte.toNat
    (c ≠ '\n' ∧ c ≠ '\r') ∧ (Token.isSeparator c = false ∧ c ≠ Token.commentMark) ∧
      ∀ p : Opcode, p.mnemonic.toList.head? ≠ some c := by
  have hall : ∀ o ∈ Opcode.all, o ≠ .store1 →
      (Char.ofNat o.byte.toNat ≠ '\n' ∧ Char.ofNat o.byte.toNat ≠ '\r') ∧
        (Token.isSeparator (Char.ofNat o.byte.toNat) = false ∧
          Char.ofNat o.byte.toNat ≠ Token.commentMark) ∧
        ∀ p ∈ Opcode.all, p.mnemonic.toList.head? ≠ some (Char.ofNat o.byte.toNat) := by
    decide
  obtain ⟨hline, hword, hp⟩ := hall o o.mem_all ho
  exact ⟨hline, hword, fun p => hp p p.mem_all⟩

/-- **No source is its own code**, but the empty one. -/
theorem eq_nil_of_assemble_self {bytes : List UInt8} {cs : List Char}
    (hd : Text.Utf8.decode bytes = .ok cs) (ha : assemble (String.ofList cs) = .ok bytes) :
    bytes = [] := by
  obtain ⟨is, hp, he⟩ := Result.map_eq_ok_iff.1 ha
  have hs := parse_eq_ok_iff.1 hp
  rw [String.toList_ofList] at hs
  rw [← he] at hd ⊢
  obtain ⟨k, hk | ⟨o, rest, ho, hk⟩⟩ := encode_cases is
  · rw [hk, ← List.append_nil (List.replicate k _), Text.Utf8.decode] at hd
    obtain ⟨ds, hds, rfl⟩ := Text.Utf8.exists_of_decodeFrom_spaces hd
    rw [Text.Utf8.decodeFrom] at hds
    obtain rfl := Except.ok.inj hds
    rw [List.append_nil] at hs
    rw [eq_nil_of_spelled_spaces hs]
    rfl
  · rw [hk, Text.Utf8.decode] at hd
    obtain ⟨ds, hds, rfl⟩ := Text.Utf8.exists_of_decodeFrom_spaces hd
    have hascii : ∀ o ∈ Opcode.all, o.byte.toNat < 0x80 := by decide
    obtain ⟨es, -, rfl⟩ := Text.Utf8.exists_of_decodeFrom_cons (hascii o o.mem_all) hds
    obtain ⟨⟨hn, hr⟩, ⟨hsep, hmark⟩, hstart⟩ := byte_char_of_ne_store1 ho
    obtain ⟨p, hp⟩ := exists_mnemonic_of_spelled hn hr hsep hmark hs
    exact absurd hp (hstart p)

end Assembly

end StackMachine
