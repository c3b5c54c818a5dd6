import WhileLang.Json.Reader
import WhileLang.Json.Quoted.Lemmas
import WhileLang.Json.Numeral.Lemmas

/-!
# JSON values are read back

`read_render`: the text of a value is read as that value, for every value. So different
values have different texts.

The proof goes through the lexemes that the text of a value consists of (`toLexemes`).

* **From text to lexemes.** Started between lexemes on the text of `j` and a rest, the lexer
  comes to stand between lexemes before the rest and has found those of `j`, provided that
  the rest does not go on a word (`Ends`).
* **From lexemes to value.** Where a value may come next, the reader takes in the lexemes of
  `j` and then stands after `j`, on the stack it had before.
-/

namespace WhileLang.Json

/-! ### The lexemes of a value -/

mutual

/-- The lexemes that the text of a value consists of. -/
def toLexemes : Json → List Lexeme
  | null => [.word .null]
  | bool b => [.word (.bool b)]
  | int i => [.word (.int i)]
  | str s => [.text (some s)]
  | array [] => [.openArray, .closeArray]
  | array (j :: items) => .openArray :: (toLexemes j ++ (itemLexemes items ++ [.closeArray]))
  | object [] => [.openObject, .closeObject]
  | object ((name, j) :: members) =>
    .openObject :: .text (some name) :: .colon ::
      (toLexemes j ++ (memberLexemes members ++ [.closeObject]))
  | foreign => [.word .foreign]

/-- The lexemes of further values of an array. -/
def itemLexemes : List Json → List Lexeme
  | [] => []
  | j :: items => .comma :: (toLexemes j ++ itemLexemes items)

/-- The lexemes of further members of an object. -/
def memberLexemes : List (String × Json) → List Lexeme
  | [] => []
  | (name, j) :: members =>
    .comma :: .text (some name) :: .colon :: (toLexemes j ++ memberLexemes members)

end

/-! ### From text to lexemes -/

/-- The rest of a text does not go on a word. -/
def Ends (rest : List Char) : Prop :=
  ∀ c r, rest = c :: r → isWordChar c = false

theorem ends_nil : Ends [] :=
  fun _ _ h => nomatch h

theorem ends_cons {c : Char} {rest : List Char} (h : isWordChar c = false) :
    Ends (c :: rest) := by
  intro d r hd
  rwa [← (List.cons.inj hd).1]

theorem ends_writeItems (items : List Json) {rest : List Char} (h : Ends rest) :
    Ends (writeItems items rest) := by
  cases items with
  | nil => exact h
  | cons j items => exact ends_cons (by decide)

theorem ends_writeMembers (members : List (String × Json)) {rest : List Char} (h : Ends rest) :
    Ends (writeMembers members rest) := by
  cases members with
  | nil => exact h
  | cons m members => exact ends_cons (by decide)

namespace Lexing

/-- A character of a word begins a word. -/
theorem fresh_of_isWordChar {found : List Lexeme} {c : Char} (h : isWordChar c = true) :
    fresh found c = some (word [c], found) := by
  have blank : isBlank c = false := by
    rw [Bool.eq_false_iff]
    intro hb
    simp only [isBlank, Bool.or_eq_true, decide_eq_true_eq] at hb
    rcases hb with ((rfl | rfl) | rfl) | rfl <;> exact absurd h (by decide)
  have quote : c ≠ '"' := by
    rintro rfl
    exact absurd h (by decide)
  simp [fresh, blank, quote, h]

/-- A sign stands for itself. -/
theorem run_sign {found : List Lexeme} {c : Char} (sign : Lexeme)
    (h : fresh found c = some (between, sign :: found)) (rest : List Char) :
    run found between (c :: rest) = run (sign :: found) between rest := by
  rw [run, step, h]

/-- The characters of a word are collected. -/
theorem run_word_append {found : List Lexeme} {cs : List Char} (chars rest : List Char)
    (h : ∀ c ∈ cs, isWordChar c = true) :
    run found (word chars) (cs ++ rest) = run found (word (cs.reverse ++ chars)) rest := by
  induction cs generalizing chars with
  | nil => rfl
  | cons c cs ih =>
    rw [List.cons_append, run, step, if_pos (h c (by simp))]
    simp [ih (c :: chars) fun d hd => h d (by simp [hd])]

/-- A word is read where it ends. -/
theorem run_word_of_ends {found : List Lexeme} {chars : List Char} {j : Json}
    (hj : readWord chars.reverse = some j) {rest : List Char} (he : Ends rest) :
    run found (word chars) rest = run (.word j :: found) between rest := by
  cases rest with
  | nil => simp [run, finish, hj]
  | cons c r => simp [run, step, he c r rfl, hj]

/-- The lexeme of a word. -/
theorem run_word {found : List Lexeme} (cs : List Char) {j : Json} (hne : cs ≠ [])
    (hj : readWord cs = some j) (hcs : ∀ c ∈ cs, isWordChar c = true) {rest : List Char}
    (he : Ends rest) :
    run found between (cs ++ rest) = run (.word j :: found) between rest := by
  obtain ⟨c, cs, rfl⟩ := List.exists_cons_of_ne_nil hne
  rw [List.cons_append, run, step, fresh_of_isWordChar (hcs c (by simp))]
  simp only
  rw [run_word_append _ _ fun d hd => hcs d (by simp [hd])]
  exact run_word_of_ends (by simpa using hj) he

/-- The lexeme of an integer. -/
theorem run_int (found : List Lexeme) (i : Int) {rest : List Char} (he : Ends rest) :
    run found between (Decimal.chars i ++ rest) = run (.word (.int i) :: found) between rest := by
  refine run_word _ (Decimal.chars_ne_nil i) (readWord_chars i) (fun c hc => ?_) he
  rcases Decimal.isDigit_or_eq_of_mem_chars hc with h | rfl
  · simp [isWordChar, Char.isAlphanum, h]
  · decide

/-- What is written for a character is taken in as its piece. -/
theorem run_escape (found : List Lexeme) (pieces : List Quoted.Piece) (c : Char)
    (rest : List Char) :
    run found (quoted .plain pieces) (Quoted.escape c ++ rest)
      = run found (quoted .plain (Quoted.pieceOf c :: pieces)) rest := by
  unfold Quoted.escape
  split
  · rename_i l hl
    obtain ⟨hu, hc⟩ := Quoted.unescape_of_letter? hl
    have piece : Quoted.pieceOf c = .char c := by simp [Quoted.pieceOf, hl]
    simp [run, step, Quoted.Pending.step, hu, hc, piece]
  · rename_i hl
    split
    · rename_i hcontrol
      have piece : Quoted.pieceOf c = .code c.toNat := by simp [Quoted.pieceOf, hl, hcontrol]
      have zero : Quoted.hexValue '0' = some 0 := rfl
      have high := Quoted.hexValue_digitChar (c.toNat / 16) (by omega)
      have low := Quoted.hexValue_digitChar (c.toNat % 16) (by omega)
      have sum : 16 * (c.toNat / 16) + c.toNat % 16 = c.toNat := by omega
      simp [run, step, Quoted.Pending.step, zero, high, low, piece, sum]
    · rename_i hplain
      obtain ⟨hquote, hback⟩ := Quoted.ne_of_letter?_eq_none hl
      have piece : Quoted.pieceOf c = .char c := by simp [Quoted.pieceOf, hplain]
      simp [run, step, Quoted.Pending.step, hquote, hback, hplain, piece]

theorem run_flatMap_escape (found : List Lexeme) (pieces : List Quoted.Piece)
    (cs rest : List Char) :
    run found (quoted .plain pieces) (cs.flatMap Quoted.escape ++ rest)
      = run found (quoted .plain ((cs.map Quoted.pieceOf).reverse ++ pieces)) rest := by
  induction cs generalizing pieces with
  | nil => rfl
  | cons c cs ih => simp [List.append_assoc, run_escape, ih]

/-- The lexeme of a quoted string. -/
theorem run_quoted (found : List Lexeme) (s : String) (rest : List Char) :
    run found between (Quoted.write s rest) = run (.text (some s) :: found) between rest := by
  have first : step found '"' between = some (quoted .plain [], found) := rfl
  rw [Quoted.write, run, first]
  simp only
  rw [run_flatMap_escape]
  simp [run, step, Quoted.assemble_map_pieceOf]

mutual

/-- The lexemes of a value's text. -/
theorem run_write (found : List Lexeme) : ∀ (j : Json) {rest : List Char}, Ends rest →
    run found between (write j rest) = run (j.toLexemes.reverse ++ found) between rest
  | null, _, he => run_word ['n', 'u', 'l', 'l'] (by simp) rfl (List.all_eq_true.1 rfl) he
  | bool true, _, he => run_word ['t', 'r', 'u', 'e'] (by simp) rfl (List.all_eq_true.1 rfl) he
  | bool false, _, he =>
    run_word ['f', 'a', 'l', 's', 'e'] (by simp) rfl (List.all_eq_true.1 rfl) he
  | foreign, _, he => run_word ['-', '0'] (by simp) rfl (List.all_eq_true.1 rfl) he
  | int i, _, he => run_int found i he
  | str s, rest, _ => run_quoted found s rest
  | array [], _, _ => rfl
  | object [], _, _ => rfl
  | array (j :: items), rest, he => by
    have close : Ends (']' :: rest) := ends_cons (by decide)
    rw [write, run_sign .openArray rfl, run_write _ j (ends_writeItems items close),
      run_writeItems _ items close, run_sign .closeArray rfl]
    simp [toLexemes]
  | object ((name, j) :: members), rest, he => by
    have close : Ends ('\x7d' :: rest) := ends_cons (by decide)
    rw [write, run_sign .openObject rfl, run_quoted, run_sign .colon rfl,
      run_write _ j (ends_writeMembers members close), run_writeMembers _ members close,
      run_sign .closeObject rfl]
    simp [toLexemes]

/-- The lexemes of the text of further values. -/
theorem run_writeItems (found : List Lexeme) : ∀ (items : List Json) {rest : List Char},
    Ends rest → run found between (writeItems items rest)
      = run ((itemLexemes items).reverse ++ found) between rest
  | [], _, _ => rfl
  | j :: items, rest, he => by
    rw [writeItems, run_sign .comma rfl, run_write _ j (ends_writeItems items he),
      run_writeItems _ items he]
    simp [itemLexemes]

/-- The lexemes of the text of further members. -/
theorem run_writeMembers (found : List Lexeme) :
    ∀ (members : List (String × Json)) {rest : List Char}, Ends rest →
      run found between (writeMembers members rest)
        = run ((memberLexemes members).reverse ++ found) between rest
  | [], _, _ => rfl
  | (name, j) :: members, rest, he => by
    rw [writeMembers, run_sign .comma rfl, run_quoted, run_sign .colon rfl,
      run_write _ j (ends_writeMembers members he), run_writeMembers _ members he]
    simp [memberLexemes]

end

end Lexing

/-- The text of a value consists of its lexemes. -/
theorem lexemes_write (j : Json) : lexemes (j.write []) = some j.toLexemes := by
  rw [lexemes, Lexing.run_write [] j ends_nil]
  simp [Lexing.run, Lexing.finish]

/-! ### From lexemes to value -/

/-- Members whose names are texts are those of an object. -/
theorem ofMembers_map_some (members : List (String × Json)) :
    ofMembers (members.map fun m => (some m.1, m.2)) = .object members := by
  have names : (members.map fun m => (some m.1, m.2)).mapM
      (fun m => m.1.map fun name => (name, m.2)) = some members := by
    induction members with
    | nil => rfl
    | cons m members ih => simp [ih]
  rw [ofMembers, names]

namespace Turn

mutual

/-- A value is **taken in whole**. In a turn `t` on `stack` that starts a value on `inner`,
the reader takes in the lexemes of `j` and comes to stand after `j` on `inner`. -/
theorem run_toLexemes {t : Turn} {stack inner : List Frame}
    (ht : ∀ l, l ≠ .closeArray → t.step stack l = start inner l) :
    ∀ (j : Json) (rest : List Lexeme),
      run stack t (j.toLexemes ++ rest) = run inner (after j) rest
  | null, rest => by simp [toLexemes, run, ht, start]
  | bool b, rest => by simp [toLexemes, run, ht, start]
  | int i, rest => by simp [toLexemes, run, ht, start]
  | str s, rest => by simp [toLexemes, run, ht, start]
  | foreign, rest => by simp [toLexemes, run, ht, start]
  | array [], rest => by
    simp only [toLexemes, List.cons_append, List.nil_append]
    rw [run, ht _ (by simp)]
    simp [run, start, step]
  | object [], rest => by
    simp only [toLexemes, List.cons_append, List.nil_append]
    rw [run, ht _ (by simp)]
    simp [run, start, step]
  | array (j :: items), rest => by
    have first : ∀ l, l ≠ .closeArray →
        firstItem.step inner l = start (.array [] :: inner) l := by
      intro l hl
      cases l with
      | closeArray => exact absurd rfl hl
      | _ => rfl
    simp only [toLexemes, List.cons_append, List.append_assoc, List.nil_append]
    rw [run, ht _ (by simp), start]
    simp only
    rw [run_toLexemes first j, run_itemLexemes [] j items]
    simp
  | object ((key, j) :: members), rest => by
    simp only [toLexemes, List.cons_append, List.append_assoc, List.nil_append]
    rw [run, ht _ (by simp), start]
    simp only
    rw [run, step]
    simp only
    rw [run, step]
    simp only
    rw [run_toLexemes (fun _ _ => rfl) j]
    exact run_memberLexemes [] key j members inner rest

/-- After the value `j` in an array, further values are taken in up to the end. -/
theorem run_itemLexemes (items : List Json) (j : Json) :
    ∀ (more : List Json) (stack : List Frame) (rest : List Lexeme),
      run (.array items :: stack) (after j) (itemLexemes more ++ .closeArray :: rest)
        = run stack (after (.array (items.reverse ++ j :: more))) rest
  | [], stack, rest => by simp [itemLexemes, run, step, proceed]
  | k :: more, stack, rest => by
    simp only [itemLexemes, List.cons_append, List.append_assoc]
    rw [run, step, proceed]
    simp only
    rw [run_toLexemes (fun _ _ => rfl) k, run_itemLexemes (j :: items) k more]
    simp

/-- After the value `j` of the name `key` in an object, further members are taken in up to
the end. -/
theorem run_memberLexemes (members : List (String × Json)) (key : String) (j : Json) :
    ∀ (more : List (String × Json)) (stack : List Frame) (rest : List Lexeme),
      run (.object (members.map fun m => (some m.1, m.2)) (some key) :: stack) (after j)
          (memberLexemes more ++ .closeObject :: rest)
        = run stack (after (.object (members.reverse ++ (key, j) :: more))) rest
  | [], stack, rest => by
    have whole := ofMembers_map_some (members.reverse ++ [(key, j)])
    simp only [List.map_append, List.map_reverse, List.map_cons, List.map_nil] at whole
    simp [memberLexemes, run, step, proceed, whole]
  | (next, k) :: more, stack, rest => by
    have later := run_memberLexemes ((key, j) :: members) next k more stack rest
    simp only [memberLexemes, List.cons_append, List.append_assoc]
    rw [run, step, proceed]
    simp only
    rw [run, step]
    simp only
    rw [run, step]
    simp only
    rw [run_toLexemes (fun _ _ => rfl) k]
    simpa using later

end

end Turn

/-- Values are **read back**: the text of a value denotes that value. -/
theorem read_render (j : Json) : read j.render = some j := by
  have whole : Turn.run [] .value (j.toLexemes ++ []) = Turn.run [] (.after j) [] :=
    Turn.run_toLexemes (fun _ _ => rfl) j []
  rw [List.append_nil] at whole
  rw [read, render, String.toList_ofList, lexemes_write, Option.bind_some, whole]
  rfl

/-- Different values have different texts. -/
theorem render_injective {j k : Json} (h : j.render = k.render) : j = k :=
  Option.some.inj ((read_render j).symm.trans ((congrArg read h).trans (read_render k)))

end WhileLang.Json
