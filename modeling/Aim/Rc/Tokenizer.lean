import Aim.Support.Utf8

/-!
# Rc — The tokenizer

The tokens of an init script: texts, the ends of lines and the end of the file.  Blanks separate
texts, `#` begins a comment where a text could begin, quotes may stand anywhere in a text, and a
backslash escapes a character or continues the line.

* `Tokenizer.nextToken`: one token; `run`: the tokens up to the end, with the line counted at each
  newline as the parser does.
* `Line.print`: a line of texts, quoted or bare, with the blanks, continuations and comments that
  may stand between and after them.
* `tokens_of_lines`: the tokens of printed lines are their texts with a newline after each line, and
  one more for the newline that `Tokenizer::new` appends; the line counts the newlines so far.
-/

namespace Aim.Rc

open List Utf8

inductive Token where
  | eof
  | text (s : List Char)
  | newline
deriving DecidableEq

/-- `rest` is the data from `ptr` on; past its end every byte is zero. -/
structure Tokenizer where
  rest : Bytes
  line : ℕ
  nextNewline : Bool

/-- What the first loop of `next_token` finds: a token that is no text, or where the text begins. -/
inductive Start where
  | token (t : Token) (rest : Bytes)
  | text (rest : Bytes)

/-- Up to the end of the line. -/
def comment : Bytes → Start
  | [] => .token .eof []
  | b :: bs =>
    if b = 0 then .token .eof (b :: bs)
    else if b = 10 then .token .newline bs
    else comment bs

def start : Bytes → Start
  | [] => .token .eof []
  | b :: bs =>
    if b = 0 then .token .eof (b :: bs)
    else if b = 10 then .token .newline bs
    else if b = 32 ∨ b = 9 ∨ b = 13 then start bs
    else if b = 35 then comment bs
    else .text (b :: bs)

/-- Which loop runs: over the text, over what is quoted in it, or over the blanks at the start of a
continued line. -/
inductive Mode where
  | plain
  | quoted
  | continued
deriving DecidableEq

/-- The loops over a text; the end of the file inside a quote discards it. -/
def scan : Mode → (text : Bytes) → (line : ℕ) → Bytes → Token × Tokenizer
  | .quoted, _, line, [] => (.eof, ⟨[], line, false⟩)
  | .quoted, text, line, b :: bs =>
    if b = 0 then (.eof, ⟨b :: bs, line, false⟩)
    else if b = 34 then scan .plain text line bs
    else scan .quoted (text ++ [b]) line bs
  | _, text, line, [] => (.text (Utf8.chars text), ⟨[], line, false⟩)
  | mode, text, line, b :: bs =>
    if mode = .continued ∧ (b = 32 ∨ b = 9) then scan .continued text line bs
    else if b = 0 then (.text (Utf8.chars text), ⟨b :: bs, line, false⟩)
    else if b = 32 ∨ b = 9 ∨ b = 13 then (.text (Utf8.chars text), ⟨bs, line, false⟩)
    else if b = 10 then (.text (Utf8.chars text), ⟨bs, line, true⟩)
    else if b = 34 then scan .quoted text line bs
    else if b = 92 then
      match bs with
      | [] => (.text (Utf8.chars text), ⟨[], line, false⟩)
      | c :: cs =>
        if c = 0 then (.text (Utf8.chars text), ⟨c :: cs, line, false⟩)
        else if c = 110 then scan .plain (text ++ [10]) line cs
        else if c = 114 then scan .plain (text ++ [13]) line cs
        else if c = 116 then scan .plain (text ++ [9]) line cs
        else if c = 92 then scan .plain (text ++ [92]) line cs
        else if c = 13 then
          match cs with
          | d :: ds =>
            if d = 10 then scan .continued text (line + 1) ds
            else scan .plain text line (d :: ds)
          | [] => scan .plain text line []
        else if c = 10 then scan .continued text (line + 1) cs
        else scan .plain (text ++ [c]) line cs
    else scan .plain (text ++ [b]) line bs

namespace Tokenizer

def new (contents : Bytes) : Tokenizer := ⟨contents ++ [10, 0], 0, false⟩

def nextToken (t : Tokenizer) : Token × Tokenizer :=
  if t.nextNewline then (.newline, { t with nextNewline := false })
  else
    match start t.rest with
    | .token tok rest => (tok, { t with rest })
    | .text rest => scan .plain [] t.line rest

end Tokenizer

/-- A token as `parse_data` takes it: the line is counted at each newline. -/
def advance (t : Tokenizer) : Token × Tokenizer :=
  match t.nextToken with
  | (.newline, t') => (.newline, { t' with line := t'.line + 1 })
  | r => r

/-- The tokens up to the end of the file, each with the tokenizer as it is then. -/
def run : (fuel : ℕ) → Tokenizer → Option (List (Token × Tokenizer))
  | 0, _ => none
  | fuel + 1, t =>
    match advance t with
    | (.eof, _) => some []
    | (tok, t') => (run fuel t').map ((tok, t') :: ·)

/-! ### Printed lines -/

inductive Blank where
  | space
  | tab

def Blank.byte : Blank → UInt8
  | space => 32
  | tab => 9

abbrev blanks (bs : List Blank) : Bytes := bs.map Blank.byte

/-- What may stand before a text where another has ended: blanks, and then continued lines, each
with blanks of its own. -/
structure Lead where
  blanks : List Blank
  continued : List (List Blank)

def Lead.print (l : Lead) : Bytes :=
  Rc.blanks l.blanks ++ l.continued.flatMap fun bs => 92 :: 10 :: Rc.blanks bs

structure Word where
  text : List Char
  quoted : Bool

/-- No zero, newline or quote; a bare word has characters, and none that ends or begins something
else. -/
structure Word.Fit (w : Word) : Prop where
  plain : ∀ c ∈ ['\x00', '\n', '"'], c ∉ w.text
  bare : w.quoted = false → w.text ≠ [] ∧ ∀ c ∈ [' ', '\t', '\r', '#', '\\'], c ∉ w.text

def Word.print (w : Word) : Bytes :=
  if w.quoted then 34 :: (Utf8.ofChars w.text ++ [34]) else Utf8.ofChars w.text

/-- A blank, more of them, and `#` with the rest of the line. -/
structure Comment where
  blank : Blank
  blanks : List Blank
  text : Bytes

def Comment.print (c : Comment) : Bytes :=
  c.blank.byte :: (Rc.blanks c.blanks ++ 35 :: c.text)

/-- A word that stands after another: at least a blank is between them. -/
structure Next where
  blank : Blank
  lead : Lead
  word : Word

def Next.print (n : Next) : Bytes := n.blank.byte :: (n.lead.print ++ n.word.print)

structure Line where
  words : Option (Word × List Next)
  comment : Option Comment

namespace Line

structure Fit (l : Line) : Prop where
  words : ∀ w ns, l.words = some (w, ns) → w.Fit ∧ ∀ n ∈ ns, n.word.Fit
  comment : ∀ c, l.comment = some c → (0 : UInt8) ∉ c.text ∧ (10 : UInt8) ∉ c.text

def texts (l : Line) : List (List Char) :=
  match l.words with
  | none => []
  | some (w, ns) => w.text :: ns.map (·.word.text)

/-- The end of a line. -/
def tail (c : Option Comment) : Bytes := (c.map Comment.print).getD [] ++ [10]

def print (l : Line) : Bytes :=
  (match l.words with
  | none => []
  | some (w, ns) => w.print ++ ns.flatMap Next.print) ++ tail l.comment

/-- Its texts and a newline. -/
def tokens (l : Line) : List Token := l.texts.map .text ++ [.newline]

end Line

/-! ### One token -/

section Scan

variable {m : Mode} {text bs rest : Bytes} {n : ℕ}

theorem blank_byte (b : Blank) : b.byte = 32 ∨ b.byte = 9 := by cases b <;> simp [Blank.byte]

theorem start_blanks (bl : List Blank) : start (blanks bl ++ rest) = start rest := by
  induction bl with
  | nil => rfl
  | cons b bl ih => cases b <;> exact ih

/-- A comment ends at its newline. -/
theorem comment_text (h0 : (0 : UInt8) ∉ bs) (h10 : (10 : UInt8) ∉ bs) :
    comment (bs ++ 10 :: rest) = .token .newline rest := by
  induction bs with
  | nil => rfl
  | cons b bs ih =>
    obtain ⟨hb0, h0⟩ := not_or.1 (mem_cons.not.1 h0)
    obtain ⟨hb10, h10⟩ := not_or.1 (mem_cons.not.1 h10)
    rw [cons_append, comment, if_neg (Ne.symm hb0), if_neg (Ne.symm hb10), ih h0 h10]

/-- Bytes that a text has as they are. -/
def Ordinary (b : UInt8) : Prop := b ∉ [0, 32, 9, 13, 10, 34, 92]

theorem scan_ordinary {b : UInt8} (hb : Ordinary b) (hm : m ≠ .quoted) :
    scan m text n (b :: bs) = scan .plain (text ++ [b]) n bs := by
  simp only [Ordinary, mem_cons, not_mem_nil, or_false, not_or] at hb
  rw [scan.eq_def]
  cases m <;> simp_all

/-- Ordinary bytes are taken as they are. -/
theorem scan_ordinaries (hbs : ∀ b ∈ bs, Ordinary b) :
    scan .plain text n (bs ++ rest) = scan .plain (text ++ bs) n rest := by
  induction bs generalizing text with
  | nil => rw [nil_append, append_nil]
  | cons b bs ih =>
    obtain ⟨hb, hbs⟩ := forall_mem_cons.1 hbs
    rw [cons_append, scan_ordinary hb (by decide), ih hbs, append_assoc]
    rfl

/-- Within quotes every byte up to the next quote is taken. -/
theorem scan_quoted (h0 : (0 : UInt8) ∉ bs) (h34 : (34 : UInt8) ∉ bs) :
    scan .quoted text n (bs ++ 34 :: rest) = scan .plain (text ++ bs) n rest := by
  induction bs generalizing text with
  | nil => rw [nil_append, append_nil, scan, if_neg (by decide), if_pos rfl]
  | cons b bs ih =>
    obtain ⟨hb0, h0⟩ := not_or.1 (mem_cons.not.1 h0)
    obtain ⟨hb34, h34⟩ := not_or.1 (mem_cons.not.1 h34)
    rw [cons_append, scan, if_neg (Ne.symm hb0), if_neg (Ne.symm hb34), ih h0 h34,
      append_assoc]
    rfl

theorem scan_quote (hm : m ≠ .quoted) : scan m text n (34 :: bs) = scan .quoted text n bs := by
  rw [scan.eq_def]
  cases m <;> simp_all

/-- A backslash at the end of a line goes on with the next one. -/
theorem scan_continue (hm : m ≠ .quoted) :
    scan m text n (92 :: 10 :: bs) = scan .continued text (n + 1) bs := by
  rw [scan.eq_def]
  cases m <;> simp_all

theorem scan_blanks (bl : List Blank) :
    scan .continued text n (blanks bl ++ rest) = scan .continued text n rest := by
  induction bl with
  | nil => rfl
  | cons b bl ih =>
    rw [← ih]
    rw [scan.eq_def]
    simp [blank_byte b]

theorem scan_blank (b : Blank) :
    scan .plain text n (b.byte :: rest) = (.text (chars text), ⟨rest, n, false⟩) := by
  rw [scan.eq_def]
  cases b <;> simp [Blank.byte]

theorem scan_newline : scan .plain text n (10 :: rest) = (.text (chars text), ⟨rest, n, true⟩) := by
  rw [scan.eq_def]
  simp

/-- A byte that is no blank, newline or comment sign starts a text. -/
theorem start_text {b : UInt8} (hb : b ∉ [0, 10, 32, 9, 13, 35]) :
    start (b :: bs) = .text (b :: bs) := by
  simp only [mem_cons, not_mem_nil, or_false, not_or] at hb
  simp [start, hb]

end Scan

variable {s : List Char}

namespace Word

variable {w : Word} {m : Mode} {n : ℕ} {rest : Bytes} {c : Char}

theorem Fit.not_mem (hw : w.Fit) (hc : c ∈ ['\x00', '\n', '"']) :
    UInt8.ofNat c.toNat ∉ ofChars w.text := by
  refine not_mem_ofChars ?_ (hw.plain c hc)
  simp only [mem_cons, not_mem_nil, or_false] at hc
  rcases hc with rfl | rfl | rfl <;> decide

theorem Fit.not_mem_bare (hw : w.Fit) (hq : w.quoted = false)
    (hc : c ∈ [' ', '\t', '\r', '#', '\\']) : UInt8.ofNat c.toNat ∉ ofChars w.text := by
  refine not_mem_ofChars ?_ ((hw.bare hq).2 c hc)
  simp only [mem_cons, not_mem_nil, or_false] at hc
  rcases hc with rfl | rfl | rfl | rfl | rfl <;> decide

/-- The bytes of a bare word. -/
theorem Fit.ordinary (hw : w.Fit) (hq : w.quoted = false) :
    ∀ b ∈ ofChars w.text, Ordinary b ∧ b ≠ 35 := by
  intro b hb
  refine ⟨fun h => ?_, fun h => ?_⟩
  swap
  · subst h
    exact hw.not_mem_bare hq (c := '#') (by simp) hb
  simp only [mem_cons, not_mem_nil, or_false] at h
  rcases h with rfl | rfl | rfl | rfl | rfl | rfl | rfl
  · exact hw.not_mem (c := '\x00') (by simp) hb
  · exact hw.not_mem_bare hq (c := ' ') (by simp) hb
  · exact hw.not_mem_bare hq (c := '\t') (by simp) hb
  · exact hw.not_mem_bare hq (c := '\r') (by simp) hb
  · exact hw.not_mem (c := '\n') (by simp) hb
  · exact hw.not_mem (c := '"') (by simp) hb
  · exact hw.not_mem_bare hq (c := '\\') (by simp) hb

theorem ofChars_ne_nil (hs : s ≠ []) : ofChars s ≠ [] := by
  obtain ⟨c, cs, rfl⟩ := exists_cons_of_ne_nil hs
  exact fun h => encode_ne_nil c (append_eq_nil_iff.1 h).1

/-- A word is scanned to its end, bare or quoted. -/
theorem Fit.scan (hw : w.Fit) (hm : m ≠ .quoted) :
    Rc.scan m [] n (w.print ++ rest) = Rc.scan .plain (ofChars w.text) n rest := by
  rw [Word.print]
  cases hq : w.quoted with
  | true =>
    rw [if_pos rfl, cons_append, scan_quote hm, append_assoc]
    exact scan_quoted (hw.not_mem (c := '\x00') (by simp)) (hw.not_mem (c := '"') (by simp))
  | false =>
    have hord := hw.ordinary hq
    obtain ⟨b, bs, hb⟩ := exists_cons_of_ne_nil (ofChars_ne_nil (hw.bare hq).1)
    rw [hb] at hord ⊢
    obtain ⟨hfirst, hord⟩ := forall_mem_cons.1 hord
    rw [if_neg (by decide), cons_append, scan_ordinary hfirst.1 hm]
    exact scan_ordinaries fun c hc => (hord c hc).1

/-- A text begins where a word does. -/
theorem Fit.start (hw : w.Fit) : Rc.start (w.print ++ rest) = .text (w.print ++ rest) := by
  rw [Word.print]
  cases hq : w.quoted with
  | true => exact start_text (by decide)
  | false =>
    have hord := hw.ordinary hq
    obtain ⟨b, bs, hb⟩ := exists_cons_of_ne_nil (ofChars_ne_nil (hw.bare hq).1)
    rw [hb] at hord ⊢
    obtain ⟨hb, h35⟩ := hord b (.head _)
    refine start_text fun h => ?_
    simp only [Ordinary, mem_cons, not_mem_nil, or_false, not_or] at hb h
    tauto

theorem Fit.count (hw : w.Fit) : w.print.count 10 = 0 := by
  refine count_eq_zero.2 ?_
  have := hw.not_mem (c := '\n') (by simp)
  rw [Word.print]
  split_ifs
  · simpa using this
  · exact this

end Word

section Lead

variable {w : Word} {m : Mode} {n : ℕ} {rest : Bytes}

theorem count_blanks (bl : List Blank) : (blanks bl).count 10 = 0 := by
  refine count_eq_zero.2 fun h => ?_
  obtain ⟨b, -, hb⟩ := mem_map.1 h
  cases b <;> cases hb

/-- Continued lines lead to the next word. -/
theorem scan_continued (hw : w.Fit) (cs : List (List Blank)) (hm : m ≠ .quoted) :
    scan m [] n (cs.flatMap (fun bs => 92 :: 10 :: blanks bs) ++ (w.print ++ rest)) =
      scan .plain (ofChars w.text) (n + cs.length) rest := by
  induction cs generalizing m n with
  | nil => exact hw.scan hm
  | cons bs cs ih =>
    rw [flatMap_cons, append_assoc, cons_append, cons_append,
      scan_continue hm, scan_blanks, ih (by decide), length_cons, Nat.add_assoc,
      Nat.add_comm 1]

theorem count_lead (l : Lead) : l.print.count 10 = l.continued.length := by
  rw [Lead.print, count_append, count_blanks, Nat.zero_add]
  induction l.continued with
  | nil => rfl
  | cons bs cs ih =>
    rw [flatMap_cons, count_append, ih, count_cons_of_ne (by decide),
      count_cons_self, count_blanks, length_cons, Nat.add_comm]

/-- The next word, up to what follows it. -/
theorem nextToken_word (hw : w.Fit) (l : Lead) :
    Tokenizer.nextToken ⟨l.print ++ (w.print ++ rest), n, false⟩ =
      scan .plain (ofChars w.text) (n + l.print.count 10) rest := by
  have hstart : start (l.continued.flatMap (fun bs => 92 :: 10 :: blanks bs) ++ (w.print ++ rest)) =
      .text (l.continued.flatMap (fun bs => 92 :: 10 :: blanks bs) ++ (w.print ++ rest)) := by
    cases l.continued with
    | nil => exact hw.start
    | cons bs cs => exact start_text (by decide)
  rw [count_lead, Tokenizer.nextToken, Lead.print, append_assoc,
    start_blanks, hstart]
  exact scan_continued hw _ (by decide)

end Lead

/-! ### Lines -/

/-- From one tokenizer to another over tokens that do not end the file. -/
inductive Steps : Tokenizer → List (Token × Tokenizer) → Tokenizer → Prop
  | nil {t : Tokenizer} : Steps t [] t
  | cons {t t' t'' : Tokenizer} {tok : Token} {es : List (Token × Tokenizer)} :
      advance t = (tok, t') → tok ≠ .eof → Steps t' es t'' → Steps t ((tok, t') :: es) t''

variable {t t' : Tokenizer} {t'' : Tokenizer} {es : List (Token × Tokenizer)}

theorem Steps.append {es' : List (Token × Tokenizer)}
    (h : Steps t es t') (h' : Steps t' es' t'') : Steps t (es ++ es') t'' := by
  induction h with
  | nil => exact h'
  | cons ha hne _ ih => exact .cons ha hne (ih h')

theorem Steps.run (h : Steps t es t')
    (hend : advance t' = (.eof, t'')) : Rc.run (es.length + 1) t = some es := by
  induction h with
  | nil => rw [Rc.run, hend]
  | @cons t t₁ t₂ tok es ha hne _ ih =>
    rw [Rc.run, ha]
    cases tok with
    | eof => exact absurd rfl hne
    | text s => exact congrArg (Option.map _) (ih hend)
    | newline => exact congrArg (Option.map _) (ih hend)

section Lines

variable {n : ℕ} {rest : Bytes}

theorem advance_pending : advance ⟨rest, n, true⟩ = (.newline, ⟨rest, n + 1, false⟩) := rfl

theorem advance_comment {c : Comment} (bl : List Blank)
    (hc : (0 : UInt8) ∉ c.text ∧ (10 : UInt8) ∉ c.text) :
    advance ⟨blanks bl ++ 35 :: (c.text ++ 10 :: rest), n, false⟩ =
      (.newline, ⟨rest, n + 1, false⟩) := by
  have hstart : start (35 :: (c.text ++ 10 :: rest)) = .token .newline rest :=
    comment_text hc.1 hc.2
  rw [advance, Tokenizer.nextToken, if_neg Bool.false_ne_true, start_blanks, hstart]

variable {c : Option Comment}

theorem count_tail (hc : ∀ k, c = some k → (10 : UInt8) ∉ k.text) : (Line.tail c).count 10 = 1 := by
  cases c with
  | none => rfl
  | some k =>
    have hb : k.blank.byte ≠ 10 := by cases k.blank <;> decide
    change (k.blank.byte :: (blanks k.blanks ++ 35 :: k.text) ++ [10]).count 10 = 1
    rw [count_append, count_cons_of_ne hb, count_append, count_blanks,
      count_cons_of_ne (by decide), count_eq_zero.2 (hc k rfl)]
    rfl

/-- The tokens of a line, and where they leave the tokenizer: only the last is a newline. -/
def Ends (t : Tokenizer) (toks : List Token) (t' : Tokenizer) : Prop :=
  ∃ es, Steps t es t' ∧ es.map (·.1) = toks ∧ ∀ e ∈ es, e.1 = .newline → e.2 = t'

theorem Ends.text {t₁ : Tokenizer} {toks : List Token}
    (h : advance t = (.text s, t₁)) (h' : Ends t₁ toks t') : Ends t (.text s :: toks) t' := by
  obtain ⟨es, hes, htoks, hnew⟩ := h'
  exact ⟨_, .cons h nofun hes, by rw [map_cons, htoks], forall_mem_cons.2 ⟨nofun, hnew⟩⟩

theorem Ends.newline (h : advance t = (.newline, t')) : Ends t [.newline] t' :=
  ⟨_, .cons h nofun .nil, rfl, forall_mem_cons.2 ⟨fun _ => rfl, nofun⟩⟩

theorem advance_text (h : t.nextToken = (.text s, t')) :
    advance t = (.text s, t') := by rw [advance, h]

/-- From a word on: the word, those after it, and the end of the line. -/
theorem words_end {text : Bytes} {ns : List Next}
    (hns : ∀ k ∈ ns, k.word.Fit) (hc : ∀ k, c = some k → (0 : UInt8) ∉ k.text ∧ (10 : UInt8) ∉ k.text)
    (ht : t.nextToken = scan .plain text n (ns.flatMap Next.print ++ (Line.tail c ++ rest))) :
    Ends t (.text (chars text) :: (ns.map fun k => .text k.word.text) ++ [.newline])
      ⟨rest, n + (ns.flatMap Next.print ++ Line.tail c).count 10, false⟩ := by
  induction ns generalizing t text n with
  | nil =>
    rw [flatMap_nil, nil_append] at ht ⊢
    rw [count_tail fun k hk => (hc k hk).2]
    cases c with
    | none => exact .text (advance_text (ht.trans scan_newline)) (.newline advance_pending)
    | some k =>
      change t.nextToken = scan .plain text n
        (k.blank.byte :: (blanks k.blanks ++ 35 :: k.text) ++ [10] ++ rest) at ht
      rw [cons_append, cons_append, scan_blank, append_assoc, append_assoc] at ht
      exact .text (advance_text ht) (.newline (advance_comment _ (hc k rfl)))
  | cons k ns ih =>
    obtain ⟨hk, hns⟩ := forall_mem_cons.1 hns
    rw [flatMap_cons, Next.print, append_assoc, cons_append, scan_blank,
      append_assoc] at ht
    have hnext := ih hns (nextToken_word (n := n) hk k.lead)
    have hb : k.blank.byte ≠ 10 := by cases k.blank <;> decide
    rw [chars_ofChars, Nat.add_assoc] at hnext
    have hcount : ((k :: ns).flatMap Next.print ++ Line.tail c).count 10 =
        k.lead.print.count 10 + (ns.flatMap Next.print ++ Line.tail c).count 10 := by
      rw [flatMap_cons, append_assoc, count_append, Next.print,
        count_cons_of_ne hb, count_append, hk.count, Nat.add_zero]
    rw [hcount]
    exact .text (advance_text ht) hnext

theorem advance_tail (hc : ∀ k, c = some k → (0 : UInt8) ∉ k.text ∧ (10 : UInt8) ∉ k.text) :
    advance ⟨Line.tail c ++ rest, n, false⟩ = (.newline, ⟨rest, n + 1, false⟩) := by
  cases c with
  | none => rfl
  | some k =>
    change advance ⟨blanks (k.blank :: k.blanks) ++ 35 :: k.text ++ [10] ++ rest, n, false⟩ = _
    rw [append_assoc, append_assoc]
    exact advance_comment _ (hc k rfl)

/-- A line gives its words and a newline, and its newlines are counted. -/
theorem line_ends {l : Line} (hl : l.Fit) :
    Ends ⟨l.print ++ rest, n, false⟩ l.tokens ⟨rest, n + l.print.count 10, false⟩ := by
  obtain ⟨words, c⟩ := l
  have hc := hl.comment
  rcases words with - | ⟨w, ns⟩
  · change Ends ⟨Line.tail c ++ rest, n, false⟩ [.newline] ⟨rest, n + (Line.tail c).count 10, false⟩
    rw [count_tail fun k hk => (hc k hk).2]
    exact .newline (advance_tail hc)
  obtain ⟨hw, hns⟩ := hl.words w ns rfl
  have hends := words_end hns hc
    (@nextToken_word w n (ns.flatMap Next.print ++ (Line.tail c ++ rest)) hw ⟨[], []⟩)
  rw [chars_ofChars] at hends
  have hprint : Line.print ⟨some (w, ns), c⟩ =
      w.print ++ (ns.flatMap Next.print ++ Line.tail c) := append_assoc ..
  have htokens : Line.tokens ⟨some (w, ns), c⟩ =
      .text w.text :: (ns.map fun k => .text k.word.text) ++ [.newline] := by
    simp [Line.tokens, Line.texts]
  rw [hprint, htokens, count_append, hw.count, Nat.zero_add, append_assoc,
    append_assoc]
  exact hends

/-- All the lines, by induction; at each newline the count is that of what was taken. -/
theorem lines_end {lines : List Line} (hl : ∀ l ∈ lines, l.Fit) :
    ∃ es, Steps ⟨lines.flatMap Line.print ++ rest, n, false⟩ es
        ⟨rest, n + (lines.flatMap Line.print).count 10, false⟩ ∧
      es.map (·.1) = lines.flatMap Line.tokens ∧
      ∀ e ∈ es, e.1 = .newline → ∃ taken,
        lines.flatMap Line.print ++ rest = taken ++ e.2.rest ∧ e.2.line = n + taken.count 10 := by
  induction lines generalizing n with
  | nil => exact ⟨[], .nil, rfl, nofun⟩
  | cons l lines ih =>
    obtain ⟨hl, hlines⟩ := forall_mem_cons.1 hl
    obtain ⟨es, hes, htoks, hnew⟩ := @line_ends n (lines.flatMap Line.print ++ rest) l hl
    obtain ⟨es', hes', htoks', hnew'⟩ := ih (n := n + l.print.count 10) hlines
    refine ⟨es ++ es', ?_, ?_, fun e he htok => ?_⟩
    · rw [flatMap_cons, append_assoc, count_append, ← Nat.add_assoc]
      exact hes.append hes'
    · rw [map_append, htoks, htoks', flatMap_cons]
    rw [flatMap_cons, append_assoc]
    rcases mem_append.1 he with he | he
    · rw [hnew e he htok]
      exact ⟨l.print, rfl, rfl⟩
    · obtain ⟨taken, htaken, hline⟩ := hnew' e he htok
      refine ⟨l.print ++ taken, by rw [htaken, append_assoc], ?_⟩
      rw [hline, count_append, Nat.add_assoc]

end Lines

/-- **The tokenizer inverts quoting.**  The tokens of printed lines are their texts with a newline
after each line, and a newline for the one that `Tokenizer::new` appends.  At each newline the line
is the number of newlines among the bytes taken so far. -/
theorem tokens_of_lines {lines : List Line} (hl : ∀ l ∈ lines, l.Fit) :
    ∃ fuel es, run fuel (.new (lines.flatMap Line.print)) = some es ∧
      es.map (·.1) = lines.flatMap Line.tokens ++ [.newline] ∧
      ∀ e ∈ es, e.1 = .newline → ∃ taken,
        lines.flatMap Line.print ++ [10, 0] = taken ++ e.2.rest ∧ e.2.line = taken.count 10 := by
  obtain ⟨es, hes, htoks, hnew⟩ := @lines_end 0 [10, 0] lines hl
  have hlast : Steps ⟨[10, 0], 0 + (lines.flatMap Line.print).count 10, false⟩
      [(.newline, ⟨[0], 0 + (lines.flatMap Line.print).count 10 + 1, false⟩)] _ :=
    .cons rfl nofun .nil
  refine ⟨_, _, (hes.append hlast).run rfl, ?_, fun e he htok => ?_⟩
  · rw [map_append, htoks]
    rfl
  rcases mem_append.1 he with he | he
  · simpa using hnew e he htok
  · cases mem_singleton.1 he
    refine ⟨lines.flatMap Line.print ++ [10], by rw [append_assoc]; rfl, ?_⟩
    rw [count_append, Nat.zero_add]
    rfl

theorem tokens_of_lines_two : ∃ lines : List Line,
    lines.flatMap Line.print = Bytes.ofAscii "on \"two words\" \\\n\tboot # c\n\n" ∧
    ∃ fuel es, run fuel (.new (lines.flatMap Line.print)) = some es ∧
      es.map (·.1) = lines.flatMap Line.tokens ++ [.newline] ∧
      ∀ e ∈ es, e.1 = .newline → ∃ taken,
        lines.flatMap Line.print ++ [10, 0] = taken ++ e.2.rest ∧ e.2.line = taken.count 10 := by
  refine ⟨[⟨some (⟨['o', 'n'], false⟩, [⟨.space, ⟨[], []⟩, ⟨"two words".toList, true⟩⟩,
    ⟨.space, ⟨[], [[.tab]]⟩, ⟨['b', 'o', 'o', 't'], false⟩⟩]), some ⟨.space, [], [32, 99]⟩⟩,
    ⟨none, none⟩], by decide +kernel, tokens_of_lines ?_⟩
  refine forall_mem_cons.2 ⟨⟨fun w ns h => ?_, fun c h => ?_⟩,
    forall_mem_cons.2 ⟨⟨nofun, nofun⟩, nofun⟩⟩
  · cases h
    refine ⟨⟨by simp, fun _ => by simp⟩, ?_⟩
    simp only [forall_mem_cons]
    exact ⟨⟨by simp, nofun⟩, ⟨by simp, fun _ => by simp⟩, nofun⟩
  · cases h
    exact ⟨by decide, by decide⟩

/-- The newline that is appended makes one more line. -/
theorem tokens_of_one_line : ∃ lines : List Line, (∀ l ∈ lines, l.Fit) ∧
    ∀ fuel es, run fuel (.new (lines.flatMap Line.print)) = some es →
      es.map (·.1) ≠ lines.flatMap Line.tokens := by
  refine ⟨[⟨some (⟨['a'], false⟩, []), none⟩], forall_mem_cons.2 ⟨⟨fun w ns h => ?_, nofun⟩,
    nofun⟩, fun fuel es h => ?_⟩
  · cases h
    exact ⟨⟨by simp, fun _ => by simp⟩, nofun⟩
  match fuel, h with
  | 0, h | 1, h | 2, h | 3, h => cases h
  | fuel + 4, h =>
    cases h
    decide

end Aim.Rc
