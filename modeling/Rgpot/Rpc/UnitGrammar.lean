import Rgpot.Rpc.Units

/-! The infix grammar of unit expressions, on strings and on tokens. -/
namespace Rgpot.Units

/-- `E := atom | E*E | E/E | E^E | (E)`, on strings. -/
inductive Infix (atom : Text → Prop) : Text → Prop
  | atom {v : Text} : atom v → Infix atom v
  | mul {l r : Text} : Infix atom l → Infix atom r → Infix atom (l ++ '*' :: r)
  | div {l r : Text} : Infix atom l → Infix atom r → Infix atom (l ++ '/' :: r)
  | pow {l r : Text} : Infix atom l → Infix atom r → Infix atom (l ++ '^' :: r)
  | paren {e : Text} : Infix atom e → Infix atom ('(' :: e ++ [')'])

/-- The binary operators. -/
def Token.IsOperator (t : Token) : Prop := t = .mul ∨ t = .div ∨ t = .pow

/-- The same grammar on tokens. -/
inductive InfixTokens (atom : Text → Prop) : List Token → Prop
  | atom {v : Text} : atom v → InfixTokens atom [.value v]
  | op {l r : List Token} {o : Token} : o.IsOperator → InfixTokens atom l → InfixTokens atom r →
      InfixTokens atom (l ++ o :: r)
  | paren {e : List Token} : InfixTokens atom e → InfixTokens atom (.lparen :: e ++ [.rparen])

/-- The string without its white space. -/
def dropSpace (unit : Text) : Text := unit.filter fun c => !isspace c

/-- Neither an operator nor white space. -/
def IsPlain (v : Text) : Prop := ∀ c ∈ v, operator c = none ∧ isspace c = false

section Tokenizer

theorem tokenizeFrom_operator {ch : Char} {t : Token} (h : operator ch = some t) (unit current : Text) :
    tokenizeFrom (ch :: unit) current = flush current ++ t :: tokenizeFrom unit [] := by
  have hmicro : ch ≠ '\u00c2' := by
    rintro rfl
    simp [operator] at h
  rw [tokenizeFrom]
  · simp only [h]
  · intro unit' hch
    exact (hmicro hch).elim

theorem tokenizeFrom_space {ch : Char} (h : operator ch = none) (hs : isspace ch = true)
    (unit current : Text) : tokenizeFrom (ch :: unit) current = tokenizeFrom unit current := by
  have hmicro : ch ≠ '\u00c2' := by
    rintro rfl
    simp [isspace] at hs
  rw [tokenizeFrom]
  · simp only [h, hs, if_true]
  · intro unit' hch
    exact (hmicro hch).elim

/-- The two bytes of a micro sign are read like any other two. -/
theorem tokenizeFrom_plain {ch : Char} (h : operator ch = none) (hs : isspace ch = false)
    (unit current : Text) :
    tokenizeFrom (ch :: unit) current = tokenizeFrom unit (current ++ [ch]) := by
  by_cases hmicro : ch = '\u00c2' ∧ ∃ rest, unit = '\u00b5' :: rest
  · obtain ⟨rfl, rest, rfl⟩ := hmicro
    have hsecond : tokenizeFrom ('\u00b5' :: rest) (current ++ ['\u00c2']) =
        tokenizeFrom rest (current ++ ['\u00c2'] ++ ['\u00b5']) := by
      rw [tokenizeFrom]
      · simp [operator, isspace]
      · intro unit' hch
        simp at hch
    rw [tokenizeFrom, hsecond, List.append_assoc]
    rfl
  · rw [tokenizeFrom]
    · simp only [h, hs, Bool.false_eq_true, if_false]
    · intro unit' hch hunit
      exact hmicro ⟨hch, unit', hunit⟩

theorem tokenizeFrom_append_operator {ch : Char} {t : Token} (h : operator ch = some t)
    (l r current : Text) :
    tokenizeFrom (l ++ ch :: r) current = tokenizeFrom l current ++ t :: tokenizeFrom r [] := by
  induction l generalizing current with
  | nil => simp [tokenizeFrom_operator h, tokenizeFrom]
  | cons c l ih =>
    rw [List.cons_append]
    cases hc : operator c with
    | some o =>
      rw [tokenizeFrom_operator hc, tokenizeFrom_operator hc, ih, List.append_assoc,
        List.cons_append]
    | none =>
      cases hs : isspace c with
      | true => rw [tokenizeFrom_space hc hs, tokenizeFrom_space hc hs, ih]
      | false => rw [tokenizeFrom_plain hc hs, tokenizeFrom_plain hc hs, ih]

theorem tokenizeFrom_of_isPlain {v : Text} (h : IsPlain v) (current : Text) :
    tokenizeFrom v current = flush (current ++ v) := by
  induction v generalizing current with
  | nil => simp [tokenizeFrom]
  | cons c v ih =>
    obtain ⟨hc, hs⟩ := h c List.mem_cons_self
    rw [tokenizeFrom_plain hc hs, ih fun d hd => h d (List.mem_cons_of_mem _ hd),
      List.append_assoc, List.singleton_append]

theorem tokenizeFrom_dropSpace (unit current : Text) :
    tokenizeFrom (dropSpace unit) current = tokenizeFrom unit current := by
  induction unit generalizing current with
  | nil => rfl
  | cons c unit ih =>
    cases hs : isspace c with
    | true =>
      have hdrop : dropSpace (c :: unit) = dropSpace unit := by simp [dropSpace, hs]
      have hc : operator c = none := by
        simp only [isspace, Bool.or_eq_true, beq_iff_eq] at hs
        rcases hs with ((((rfl | rfl) | rfl) | rfl) | rfl) | rfl <;> rfl
      rw [hdrop, ih, tokenizeFrom_space hc hs]
    | false =>
      have hdrop : dropSpace (c :: unit) = c :: dropSpace unit := by simp [dropSpace, hs]
      rw [hdrop]
      cases hc : operator c with
      | some o => rw [tokenizeFrom_operator hc, tokenizeFrom_operator hc, ih]
      | none => rw [tokenizeFrom_plain hc hs, tokenizeFrom_plain hc hs, ih]

theorem tokenize_dropSpace (unit : Text) : tokenize (dropSpace unit) = tokenize unit :=
  tokenizeFrom_dropSpace unit []

theorem flush_text (current : Text) : (flush current).flatMap Token.as_str = current := by
  unfold flush
  split
  · next h => rw [h]; rfl
  · simp [Token.as_str]

theorem operator_text {ch : Char} {t : Token} (h : operator ch = some t) : t.as_str = [ch] := by
  unfold operator at h
  split at h <;> cases h <;> rfl

/-- The tokens spell the string, white space apart. -/
theorem tokenizeFrom_text (unit current : Text) :
    (tokenizeFrom unit current).flatMap Token.as_str = current ++ dropSpace unit := by
  induction unit generalizing current with
  | nil => simp [tokenizeFrom, flush_text, dropSpace]
  | cons c unit ih =>
    cases hc : operator c with
    | some o =>
      have hs : isspace c = false := by
        unfold operator at hc
        split at hc <;> first | rfl | cases hc
      rw [tokenizeFrom_operator hc, List.flatMap_append, flush_text, List.flatMap_cons, ih,
        operator_text hc]
      simp [dropSpace, hs]
    | none =>
      cases hs : isspace c with
      | true =>
        rw [tokenizeFrom_space hc hs, ih]
        simp [dropSpace, hs]
      | false =>
        rw [tokenizeFrom_plain hc hs, ih]
        simp [dropSpace, hs]

theorem tokenize_text (unit : Text) : (tokenize unit).flatMap Token.as_str = dropSpace unit :=
  tokenizeFrom_text unit []

end Tokenizer

section Bridge
variable {atom : Text → Prop}

/-- What the tokens derive, the string they spell derives. -/
theorem InfixTokens.text {ts : List Token} (h : InfixTokens atom ts) :
    Infix atom (ts.flatMap Token.as_str) := by
  induction h with
  | atom hv => simpa [Token.as_str] using Infix.atom hv
  | op ho _ _ ihl ihr =>
    rw [List.flatMap_append, List.flatMap_cons]
    rcases ho with rfl | rfl | rfl
    · exact ihl.mul ihr
    · exact ihl.div ihr
    · exact ihl.pow ihr
  | paren _ ih => simpa [Token.as_str] using ih.paren

/-- What a string derives over plain atoms, its tokens derive. -/
theorem Infix.tokens (hatom : ∀ v, atom v → IsPlain v ∧ v ≠ []) {s : Text} (h : Infix atom s) :
    InfixTokens atom (tokenize s) := by
  induction h with
  | atom hv =>
    obtain ⟨hplain, hne⟩ := hatom _ hv
    rw [tokenize, tokenizeFrom_of_isPlain hplain, List.nil_append, flush, if_neg hne]
    exact .atom hv
  | mul _ _ ihl ihr =>
    rw [tokenize, tokenizeFrom_append_operator (t := .mul) rfl]
    exact .op (Or.inl rfl) ihl ihr
  | div _ _ ihl ihr =>
    rw [tokenize, tokenizeFrom_append_operator (t := .div) rfl]
    exact .op (Or.inr (Or.inl rfl)) ihl ihr
  | pow _ _ ihl ihr =>
    rw [tokenize, tokenizeFrom_append_operator (t := .pow) rfl]
    exact .op (Or.inr (Or.inr rfl)) ihl ihr
  | paren _ ih =>
    rw [tokenize, List.cons_append, tokenizeFrom_operator (t := .lparen) rfl,
      tokenizeFrom_append_operator (t := .rparen) rfl]
    exact .paren ih

/-- A string derives from the grammar exactly when its tokens do. -/
theorem infix_dropSpace_iff (hatom : ∀ v, atom v → IsPlain v ∧ v ≠ []) (unit : Text) :
    Infix atom (dropSpace unit) ↔ InfixTokens atom (tokenize unit) := by
  constructor
  · intro h
    rw [← tokenize_dropSpace]
    exact h.tokens hatom
  · intro h
    rw [← tokenize_text]
    exact h.text

end Bridge

section Atoms

/-- Decimal digits. -/
def IsDigits (s : Text) : Prop := ∀ c ∈ s, isDigit 10 c = true

/-- A complete decimal numeral: an optional sign, digits with at most one point, and an optional
exponent. -/
def IsDecimal (s : Text) : Prop :=
  ∃ sign whole fraction exponent, s = sign ++ whole ++ fraction ++ exponent ∧
    sign ∈ [[], ['+'], ['-']] ∧ IsDigits whole ∧
    (fraction = [] ∧ whole ≠ [] ∨
      ∃ digits, fraction = '.' :: digits ∧ IsDigits digits ∧ (whole ≠ [] ∨ digits ≠ [])) ∧
    (exponent = [] ∨ ∃ mark expsign digits, exponent = mark :: expsign ++ digits ∧
      mark ∈ ['e', 'E'] ∧ expsign ∈ [[], ['+'], ['-']] ∧ IsDigits digits ∧ digits ≠ [])

theorem isPlain_append {s t : Text} : IsPlain (s ++ t) ↔ IsPlain s ∧ IsPlain t := by
  simp only [IsPlain, List.mem_append]
  constructor
  · intro h
    exact ⟨fun c hc => h c (Or.inl hc), fun c hc => h c (Or.inr hc)⟩
  · rintro ⟨hs, ht⟩ c (hc | hc)
    · exact hs c hc
    · exact ht c hc

theorem IsDigits.isPlain {s : Text} (h : IsDigits s) : IsPlain s := by
  intro c hc
  have hd := h c hc
  constructor
  · by_contra hop
    unfold operator at hop
    split at hop <;> first | exact hop rfl | simp [isDigit, digitValue] at hd
  · by_contra hsp
    simp only [isspace, Bool.not_eq_false, Bool.or_eq_true, beq_iff_eq] at hsp
    rcases hsp with ((((rfl | rfl) | rfl) | rfl) | rfl) | rfl <;> simp [isDigit, digitValue] at hd

theorem IsDecimal.isPlain {s : Text} (h : IsDecimal s) : IsPlain s ∧ s ≠ [] := by
  obtain ⟨sign, whole, fraction, exponent, rfl, hsign, hwhole, hfraction, hexponent⟩ := h
  have plainSign : ∀ t ∈ [[], ['+'], ['-']], IsPlain t := by
    simp [IsPlain, operator, isspace]
  have plainMark : ∀ c ∈ ['e', 'E', '.'], IsPlain [c] := by
    simp [IsPlain, operator, isspace]
  constructor
  · rw [isPlain_append, isPlain_append, isPlain_append]
    refine ⟨⟨⟨plainSign _ hsign, hwhole.isPlain⟩, ?_⟩, ?_⟩
    · rcases hfraction with ⟨rfl, -⟩ | ⟨digits, rfl, hd, -⟩
      · intro c hc
        cases hc
      · exact isPlain_append.mpr ⟨plainMark '.' (by decide), hd.isPlain⟩
    · rcases hexponent with rfl | ⟨mark, expsign, digits, rfl, hm, hsg, hd, -⟩
      · intro c hc
        cases hc
      · have hmark : IsPlain [mark] := plainMark mark (by
          rcases List.mem_pair.mp hm with rfl | rfl <;> simp)
        exact isPlain_append.mpr ⟨isPlain_append.mpr ⟨hmark, plainSign _ hsg⟩, hd.isPlain⟩
  · rcases hfraction with ⟨rfl, hne⟩ | ⟨digits, rfl, -, -⟩
    · simp [hne]
    · simp

variable {K : Type} [Add K] [Sub K] [MulOneClass K] [Div K] [Zero K] [Number K]

/-- The names of the table have neither operators nor white space in them. -/
theorem baseUnits_plain : ((BASE_UNITS : List (String × UnitValue K)).map Prod.fst).all
    (fun name => name.toList ≠ [] ∧ name.toList.all fun c => operator c == none && !isspace c) =
      true := by
  simp only [BASE_UNITS, List.map_cons, List.map_nil]
  decide +kernel

theorem isPlain_of_lookup {v : Text} (h : (lookup v : Option (UnitValue K)) ≠ none) :
    IsPlain v ∧ v ≠ [] := by
  unfold lookup at h
  cases hf : (BASE_UNITS : List (String × UnitValue K)).find?
      fun entry => entry.1.toList == to_lower v with
  | none => simp [hf] at h
  | some entry =>
    have hname : entry.1.toList = to_lower v := by simpa using List.find?_some hf
    have hall := List.all_eq_true.mp (baseUnits_plain (K := K)) entry.1
      (List.mem_map_of_mem (List.mem_of_find?_eq_some hf))
    simp only [decide_eq_true_eq, hname, List.all_eq_true, Bool.and_eq_true, beq_iff_eq,
      Bool.not_eq_true'] at hall
    obtain ⟨hne, hplain⟩ := hall
    constructor
    · intro c hc
      have hlow := hplain _ (List.mem_map_of_mem hc)
      -- lowering moves no operator and no white space
      constructor
      · by_contra hop
        unfold operator at hop
        split at hop <;> first | exact hop rfl | simp [operator] at hlow
      · by_contra hsp
        simp only [isspace, Bool.not_eq_false, Bool.or_eq_true, beq_iff_eq] at hsp
        rcases hsp with ((((rfl | rfl) | rfl) | rfl) | rfl) | rfl <;> simp [isspace] at hlow
    · rintro rfl
      exact hne rfl

variable (K) in
/-- A base unit in any case, or a complete decimal numeral. -/
def IsAtom (v : Text) : Prop := (lookup v : Option (UnitValue K)) ≠ none ∨ IsDecimal v

theorem IsAtom.isPlain {v : Text} (h : IsAtom K v) : IsPlain v ∧ v ≠ [] := by
  rcases h with h | h
  · exact isPlain_of_lookup h
  · exact h.isPlain

end Atoms
end Rgpot.Units
