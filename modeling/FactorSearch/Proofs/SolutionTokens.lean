import FactorSearch.Proofs.LineFaults
import FactorSearch.Proofs.SolutionRoundTrip

/-!
Signed integers in the text of a solution, against the tokens of a clause. The numerals of a
text are those of its words, one after another, and what they bind depends only on which of them
there are: either no variable has both signs and each has the one it is given, or the reading
fails for a variable that has both. A word of digits with a sign, perhaps, binds what it is as a
literal, with one exception: a minus sign is lost on a number that begins with a zero.
-/

namespace FactorSearch.SolutionText

open Text ProblemText

/-- Digits after a sign, if there is one. -/
def signed (negative : Bool) (ds : List Char) : List Char := if negative then '-' :: ds else ds

/-- A sign, perhaps, and then digits, no more than an integer may have. -/
def IsToken (w : List Char) : Prop :=
  ∃ negative ds, w = signed negative ds ∧ ds ≠ [] ∧ (∀ c ∈ ds, c.isDigit = true) ∧
    ds.length ≤ digitLimit

/-- The token that a token is taken for: it loses its minus sign if a zero follows. -/
def heard : List Char → List Char
  | '-' :: '0' :: ds => '0' :: ds
  | w => w

/-- There is a minus sign, and no zero follows. -/
def heardNegative (negative : Bool) (ds : List Char) : Bool := negative && ds.head? != some '0'

/-- A minus sign before a number that begins with a zero but is another one. -/
def LosesSign (w : List Char) : Prop := ∃ ds, w = '-' :: '0' :: ds ∧ ∃ d ∈ ds, d ≠ '0'

/-- As a token of a clause the word is the literal of this variable and sign. -/
def Denotes (w : List Char) (x : Int) (b : Bool) : Prop :=
  ∃ l, literalOf w = .ok l ∧ l.var = x ∧ l.positive = b

/-- One of the tokens denotes this variable and sign. -/
def Given (ws : List (List Char)) (x : Int) (b : Bool) : Prop := ∃ w ∈ ws, Denotes w x b

/-- What is read gives the variables the signs of the tokens, or fails exactly if some variable
is given both. -/
structure Follows (source : Option String) (ws : List (List Char))
    (r : Except SolutionError (Option (Table Int Bool))) : Prop where
  values : (∀ x, ¬ (Given ws x true ∧ Given ws x false)) →
    ∃ t, r = .ok (some t) ∧ ∀ x b, t.get? x = some b ↔ Given ws x b
  conflict : (∃ x, r = .error (.bothWays x source)) ↔ ∃ x, Given ws x true ∧ Given ws x false

namespace Numeral

/-- The numeral stands for this variable and sign. -/
def Binds (n : Numeral) (x : Int) (b : Bool) : Prop :=
  (plainValue n.digits : Int) = x ∧ (!n.negative) = b

end Numeral

section Scan

variable {open? : Option Numeral} {minus : Bool} {cs rest : List Char} {c : Char}

/-- A character that is neither a digit nor a minus sign parts the numerals. -/
theorem numeralsFrom_append (hdigit : c.isDigit = false) (hminus : c ≠ '-') :
    numeralsFrom open? minus (cs ++ c :: rest) =
      numeralsFrom open? minus cs ++ numerals rest := by
  have hclear : (c == '-') = false := beq_eq_false_iff_ne.2 hminus
  fun_induction numeralsFrom open? minus cs with
  | case1 open? =>
    cases open? <;> simp [numeralsFrom, numerals, hdigit, hclear]
  | case2 minus c' rest' n hc ih =>
    rw [List.cons_append, numeralsFrom, hc, if_pos rfl, ih]
  | case3 minus c' rest' n hc ih =>
    rw [List.cons_append, numeralsFrom, if_neg hc, ih, List.cons_append]
  | case4 minus c' rest' hc ih =>
    rw [List.cons_append, numeralsFrom, if_pos hc, ih]
  | case5 minus c' rest' hc ih =>
    rw [List.cons_append, numeralsFrom, if_neg hc, ih]

theorem numeral_of_isBlank (h : isBlank c = true) : c.isDigit = false ∧ c ≠ '-' := by
  constructor
  · rw [← Bool.not_eq_true]
    intro hdigit
    rw [isBlank_of_isDigit hdigit] at h
    cases h
  · rintro rfl
    exact absurd h (by decide)

theorem numerals_fieldsFrom (field cs : List Char) :
    numerals (field.reverse ++ cs) = (fieldsFrom isBlank field cs).flatMap numerals := by
  induction cs generalizing field with
  | nil => rw [fieldsFrom, List.flatMap_singleton, List.append_nil]
  | cons c rest ih =>
    rw [fieldsFrom]
    split
    · rename_i hblank
      obtain ⟨hdigit, hminus⟩ := numeral_of_isBlank hblank
      have hrest := ih []
      rw [List.reverse_nil, List.nil_append] at hrest
      rw [List.flatMap_cons, ← hrest]
      exact numeralsFrom_append hdigit hminus
    · rw [← ih, List.reverse_cons, List.append_assoc, List.singleton_append]

/-- The numerals of a text are those of its words. -/
theorem numerals_words (cs : List Char) : numerals cs = (words cs).flatMap numerals := by
  have hfields : numerals cs = (fields isBlank cs).flatMap numerals := numerals_fieldsFrom [] cs
  rw [hfields, words]
  induction fields isBlank cs with
  | nil => rfl
  | cons w ws ih =>
    cases w with
    | nil => exact ih
    | cons d ds => rw [List.filter_cons_of_pos rfl, List.flatMap_cons, List.flatMap_cons, ih]

/-- A number that does not begin with a zero is one numeral. -/
theorem numeralsFrom_plain {ds : List Char} (h : Plain ds) (minus : Bool) :
    numeralsFrom none minus ds = [⟨minus, ds⟩] := by
  obtain ⟨d, rest, rfl, hzero⟩ := h.leads
  have hdigits := h.digits
  rw [List.forall_mem_cons] at hdigits
  have hline := numeralsFrom_number hdigits.1 hzero hdigits.2 minus (c := '\n') rfl []
  have hparted : numeralsFrom none minus (d :: rest ++ ['\n']) =
      numeralsFrom none minus (d :: rest) ++ numerals [] := numeralsFrom_append rfl (by decide)
  rw [List.cons_append, hline] at hparted
  exact (hparted.trans (List.append_nil _)).symm

/-- A zero is passed over, and a minus sign before it is forgotten. -/
theorem numeralsFrom_zero (minus : Bool) (ds : List Char) :
    numeralsFrom none minus ('0' :: ds) = numerals ds := rfl

end Scan

section Tokens

variable {w ds : List Char} {x : Int} {b : Bool}

theorem heardNegative_zero (negative : Bool) (ds : List Char) :
    heardNegative negative ('0' :: ds) = false := by
  rw [heardNegative, List.head?_cons, bne_self_eq_false, Bool.and_false]

theorem heardNegative_of_ne (h : ds.head? ≠ some '0') (negative : Bool) :
    heardNegative negative ds = negative := by
  rw [heardNegative, bne_iff_ne.2 h, Bool.and_true]

/-- Digits are a numeral of the same value, unless all of them are zeros. -/
theorem numeralsFrom_digits_cases (h : ∀ c ∈ ds, c.isDigit = true) (minus : Bool) :
    (plainValue ds = 0 ∧ numeralsFrom none minus ds = []) ∨
      (0 < plainValue ds ∧ ∃ n, numeralsFrom none minus ds = [n] ∧
        plainValue n.digits = plainValue ds ∧ n.digits.length ≤ ds.length ∧
        n.negative = heardNegative minus ds) := by
  induction ds generalizing minus with
  | nil => exact .inl ⟨rfl, rfl⟩
  | cons d rest ih =>
    by_cases hzero : d = '0'
    · subst hzero
      rw [heardNegative_zero, numeralsFrom_zero]
      rcases ih (List.forall_mem_cons.1 h).2 false with hrest | ⟨hpos, n, hn, hvalue, hlength, hsign⟩
      · exact .inl hrest
      · exact .inr ⟨hpos, n, hn, hvalue, Nat.le_succ_of_le hlength, hsign⟩
    · have hplain : Plain (d :: rest) := ⟨h, d, rest, rfl, hzero⟩
      rw [heardNegative_of_ne (by simpa using hzero)]
      exact .inr ⟨hplain.value_pos, ⟨minus, d :: rest⟩, numeralsFrom_plain hplain minus, rfl,
        Nat.le_refl _, rfl⟩

theorem numerals_signed (negative : Bool) (ds : List Char) :
    numerals (signed negative ds) = numeralsFrom none negative ds := by
  cases negative <;> rfl

theorem heard_eq_self (h : ∀ ds, w ≠ '-' :: '0' :: ds) : heard w = w := by
  unfold heard
  split
  · exact absurd rfl (h _)
  · rfl

theorem heard_signed (h : ∀ c ∈ ds, c.isDigit = true) (negative : Bool) :
    heard (signed negative ds) = signed (heardNegative negative ds) ds := by
  cases negative with
  | false =>
    apply heard_eq_self
    rintro rest rfl
    exact absurd (h '-' List.mem_cons_self) (by decide)
  | true =>
    by_cases hzero : ds.head? = some '0'
    · obtain ⟨rest, rfl⟩ := List.head?_eq_some_iff.1 hzero
      rfl
    · rw [heardNegative_of_ne hzero]
      apply heard_eq_self
      intro rest heq
      cases heq
      exact hzero rfl

theorem denotes_signed_iff (hne : ds ≠ []) (h : ∀ c ∈ ds, c.isDigit = true)
    (hlength : ds.length ≤ digitLimit) (negative : Bool) :
    Denotes (signed negative ds) x b ↔
      0 < plainValue ds ∧ (plainValue ds : Int) = x ∧ (!negative) = b := by
  have hread : parseInteger (signed negative ds) =
      .ok (if negative then -(plainValue ds : Int) else plainValue ds) := by
    obtain ⟨hplus, hminus⟩ := parseInteger_digits h hne hlength
    cases negative
    · exact hplus
    · exact hminus
  rcases literalOf_cases (signed negative ds) with ⟨-, l, hl, hinteger⟩ | ⟨hinvalid, hreport⟩
  · have hliteral : 0 < plainValue ds ∧ l.var = plainValue ds ∧ l.positive = !negative := by
      rw [hread, Except.ok.injEq, Literal.toInt] at hinteger
      have hpos := l.var_pos
      cases negative <;> cases hsign : l.positive <;> simp [hsign] at hinteger ⊢ <;> omega
    obtain ⟨hpos, hvar, hsign⟩ := hliteral
    rw [Denotes, hl]
    constructor
    · rintro ⟨m, hm, rfl, rfl⟩
      cases hm
      exact ⟨hpos, hvar.symm, hsign.symm⟩
    · rintro ⟨-, rfl, rfl⟩
      exact ⟨l, rfl, hvar, hsign⟩
  · rw [Denotes, hreport]
    constructor
    · rintro ⟨l, hl, -⟩
      cases hl
    · rintro ⟨hpos, -⟩
      refine absurd ⟨_, hread, ?_⟩ hinvalid
      split <;> omega

/-- A token binds what the token that it is taken for denotes. -/
theorem binds_numerals_iff (h : IsToken w) :
    (∃ n ∈ numerals w, n.Binds x b) ↔ Denotes (heard w) x b := by
  obtain ⟨negative, ds, rfl, hne, hdigits, hlength⟩ := h
  rw [numerals_signed, heard_signed hdigits, denotes_signed_iff hne hdigits hlength]
  rcases numeralsFrom_digits_cases hdigits negative with
    ⟨hzero, hnone⟩ | ⟨hpos, n, hn, hvalue, -, hsign⟩
  · rw [hnone, hzero]
    simp
  · simp only [hn, List.mem_singleton, exists_eq_left, Numeral.Binds, hvalue, hsign,
      and_iff_right hpos]

theorem length_le_of_mem_numerals (h : IsToken w) :
    ∀ n ∈ numerals w, n.digits.length ≤ digitLimit := by
  obtain ⟨negative, ds, rfl, -, hdigits, hlength⟩ := h
  rw [numerals_signed]
  rcases numeralsFrom_digits_cases hdigits negative with ⟨-, hnone⟩ | ⟨-, n, hn, -, hle, -⟩
  · rw [hnone]
    exact List.forall_mem_nil _
  · rw [hn, List.forall_mem_singleton]
    exact Nat.le_trans hle hlength

theorem plainValue_zeros (h : ∀ d ∈ ds, d = '0') : plainValue ds = 0 := by
  induction ds with
  | nil => rfl
  | cons d rest ih =>
    rw [List.forall_mem_cons] at h
    obtain ⟨rfl, hrest⟩ := h
    exact ih hrest

/-- A token that keeps its sign is taken for what it denotes. -/
theorem denotes_heard_iff (h : IsToken w) (hkeeps : ¬ LosesSign w) :
    Denotes (heard w) x b ↔ Denotes w x b := by
  obtain ⟨negative, ds, rfl, hne, hdigits, hlength⟩ := h
  rw [heard_signed hdigits]
  by_cases hzero : ds.head? = some '0'
  · obtain ⟨rest, rfl⟩ := List.head?_eq_some_iff.1 hzero
    rw [denotes_signed_iff hne hdigits hlength, denotes_signed_iff hne hdigits hlength]
    cases negative with
    | false => rfl
    | true =>
      have hzeros : plainValue ('0' :: rest) = 0 := by
        apply plainValue_zeros
        rw [List.forall_mem_cons]
        refine ⟨rfl, fun d hd => ?_⟩
        by_contra hother
        exact hkeeps ⟨rest, rfl, d, hd, hother⟩
      rw [hzeros]
      simp
  · rw [heardNegative_of_ne hzero]

end Tokens

section Assigned

variable {source : Option String} {t u : Table Int Bool} {ns : List Numeral}

theorem get?_of_assign (h : assign source t ns = .ok u) (x : Int) (b : Bool) :
    u.get? x = some b ↔ t.get? x = some b ∨ ∃ n ∈ ns, n.Binds x b := by
  fun_induction assign source t ns with
  | case1 t =>
    cases h
    simp
  | case2 => cases h
  | case3 t n rest hfits v hold ih =>
    rw [ih h, List.exists_mem_cons_iff, Numeral.Binds]
    constructor
    · exact Or.imp_right Or.inr
    · rintro (htable | ⟨rfl, rfl⟩ | hrest)
      · exact .inl htable
      · exact .inl hold
      · exact .inr hrest
  | case4 => cases h
  | case5 t n rest hfits v hnew ih =>
    rw [ih h, List.exists_mem_cons_iff, Numeral.Binds, Table.get?_insert, ← or_assoc]
    apply or_congr_left
    by_cases hvar : v = x
    · subst hvar
      rw [if_pos rfl, hnew, Option.some.injEq]
      simp [v]
    · rw [if_neg hvar]
      exact (or_iff_left fun hbinds => hvar hbinds.1).symm

/-- The reading fails for a variable that is bound both ways. -/
theorem bothWays_of_assign {e : SolutionError} (hshort : ∀ n ∈ ns, n.digits.length ≤ digitLimit)
    (h : assign source t ns = .error e) :
    ∃ x, e = .bothWays x source ∧ ∀ b, t.get? x = some b ∨ ∃ n ∈ ns, n.Binds x b := by
  fun_induction assign source t ns with
  | case1 t => cases h
  | case2 t n rest hlong =>
    exact absurd hlong (Nat.not_lt.2 (hshort n List.mem_cons_self))
  | case3 t n rest hfits v hold ih =>
    obtain ⟨x, he, hboth⟩ := ih (List.forall_mem_cons.1 hshort).2 h
    refine ⟨x, he, fun b => ?_⟩
    rw [List.exists_mem_cons_iff]
    exact (hboth b).imp_right .inr
  | case4 t n rest hfits v b' hold hother =>
    cases h
    refine ⟨v, rfl, fun b => ?_⟩
    by_cases hb : b' = b
    · exact .inl (hb ▸ hold)
    · refine .inr ⟨n, List.mem_cons_self, rfl, ?_⟩
      rw [Bool.eq_not.2 (Ne.symm hother), ← Bool.eq_not.2 (Ne.symm hb)]
  | case5 t n rest hfits v hnew ih =>
    obtain ⟨x, he, hboth⟩ := ih (List.forall_mem_cons.1 hshort).2 h
    refine ⟨x, he, fun b => ?_⟩
    rw [List.exists_mem_cons_iff]
    have hb := hboth b
    rw [Table.get?_insert] at hb
    by_cases hvar : v = x
    · rw [if_pos hvar, Option.some.injEq] at hb
      exact .inr (hb.imp_left fun hsign => ⟨hvar, hsign⟩)
    · rw [if_neg hvar] at hb
      exact hb.imp_right .inr

end Assigned

section Read

variable {source : Option String} {ws : List (List Char)}

theorem Follows.congr {ws' : List (List Char)} {r : Except SolutionError (Option (Table Int Bool))}
    (h : Follows source ws r) (hws : ∀ x b, Given ws x b ↔ Given ws' x b) :
    Follows source ws' r where
  values := by
    simp only [← hws]
    exact h.values
  conflict := by
    simp only [← hws]
    exact h.conflict

theorem Follows.not_conflict {t : Table Int Bool} {r : Except SolutionError (Option (Table Int Bool))}
    (h : Follows source ws r) (hr : r = .ok (some t)) (x : Int) :
    ¬ (Given ws x true ∧ Given ws x false) := by
  intro hx
  obtain ⟨y, hy⟩ := h.conflict.2 ⟨x, hx⟩
  rw [hr] at hy
  cases hy

theorem given_map_iff {f : List Char → List Char} {x : Int} {b : Bool} :
    Given (ws.map f) x b ↔ ∃ w ∈ ws, Denotes (f w) x b := by
  simp only [Given, List.mem_map, exists_exists_and_eq_and]

theorem given_heard_iff (h : ∀ w ∈ ws, IsToken w) (x : Int) (b : Bool) :
    Given (ws.map heard) x b ↔ ∃ n ∈ ws.flatMap numerals, n.Binds x b := by
  rw [given_map_iff]
  constructor
  · rintro ⟨w, hw, hliteral⟩
    obtain ⟨n, hn, hbinds⟩ := (binds_numerals_iff (h w hw)).2 hliteral
    exact ⟨n, List.mem_flatMap.2 ⟨w, hw, hn⟩, hbinds⟩
  · rintro ⟨n, hn, hbinds⟩
    obtain ⟨w, hw, hn⟩ := List.mem_flatMap.1 hn
    exact ⟨w, hw, (binds_numerals_iff (h w hw)).1 ⟨n, hn, hbinds⟩⟩

theorem given_heard_iff_given (h : ∀ w ∈ ws, IsToken w) (hkeeps : ∀ w ∈ ws, ¬ LosesSign w)
    (x : Int) (b : Bool) : Given (ws.map heard) x b ↔ Given ws x b := by
  rw [given_map_iff]
  apply exists_congr
  intro w
  apply and_congr_right
  exact fun hw => denotes_heard_iff (h w hw) (hkeeps w hw)

/-- The numerals of tokens are assigned as what these are taken for. -/
theorem follows_assign (h : ∀ w ∈ ws, IsToken w) :
    Follows source (ws.map heard)
      (some <$> assign source Table.empty (ws.flatMap numerals)) := by
  have hgiven := given_heard_iff h
  cases hassign : assign source Table.empty (ws.flatMap numerals) with
  | ok t =>
    have hvalues : ∀ x b, t.get? x = some b ↔ Given (ws.map heard) x b := by
      intro x b
      rw [get?_of_assign hassign, Table.get?_empty, hgiven]
      simp
    refine ⟨fun _ => ⟨t, rfl, hvalues⟩, ?_⟩
    constructor
    · rintro ⟨x, hx⟩
      cases hx
    · rintro ⟨x, htrue, hfalse⟩
      rw [← hvalues] at htrue hfalse
      rw [htrue] at hfalse
      cases hfalse
  | error e =>
    have hshort : ∀ n ∈ ws.flatMap numerals, n.digits.length ≤ digitLimit := by
      intro n hn
      obtain ⟨w, hw, hn⟩ := List.mem_flatMap.1 hn
      exact length_le_of_mem_numerals (h w hw) n hn
    obtain ⟨x, rfl, hboth⟩ := bothWays_of_assign hshort hassign
    have hconflict : Given (ws.map heard) x true ∧ Given (ws.map heard) x false := by
      rw [hgiven, hgiven]
      exact ⟨(hboth true).resolve_left (by simp), (hboth false).resolve_left (by simp)⟩
    exact ⟨fun hnone => absurd hconflict (hnone x), ⟨fun _ => ⟨x, hconflict⟩, fun _ => ⟨x, rfl⟩⟩⟩

theorem parse_body (source : Option String) (body : List Char) :
    parse source ("SAT\n".toList ++ body) =
      some <$> assign source Table.empty ((words body).flatMap numerals) := by
  have hstart : "SAT\n".toList = ['S', 'A', 'T', '\n'] := rfl
  have hnumerals : numerals ("SAT\n".toList ++ body) = numerals body := by
    rw [hstart]
    rfl
  rw [← numerals_words, ← hnumerals, parse, if_pos]
  rw [hstart]
  rfl

/-- After the word and a line break, tokens are read as the literals they are as tokens of a
clause, zeros aside, except that a minus sign is lost on a number that begins with a zero. The
reading fails exactly if some variable is given both signs. -/
theorem parse_tokens (source : Option String) (body : List Char)
    (h : ∀ w ∈ words body, IsToken w) :
    Follows source ((words body).map heard) (parse source ("SAT\n".toList ++ body)) ∧
      ((∀ w ∈ words body, ¬ LosesSign w) →
        Follows source (words body) (parse source ("SAT\n".toList ++ body))) := by
  have hheard : Follows source ((words body).map heard) (parse source ("SAT\n".toList ++ body)) := by
    rw [parse_body]
    exact follows_assign h
  exact ⟨hheard, fun hkeeps => hheard.congr (given_heard_iff_given h hkeeps)⟩

/-- Zeros before the digits, and zeros alone with or without a sign. -/
def padded : String := "012 -7\n0 -00 0012"

theorem parse_tokens_padded :
    (∀ w ∈ words padded.toList, IsToken w) ∧ (∀ w ∈ words padded.toList, ¬ LosesSign w) ∧
      ∃ t, parse none ("SAT\n".toList ++ padded.toList) = .ok (some t) ∧
        t.entries = [(12, true), (7, false)] ∧
        ∀ x b, t.get? x = some b ↔ Given (words padded.toList) x b := by
  have hwords : words padded.toList =
      ["012".toList, "-7".toList, "0".toList, "-00".toList, "0012".toList] := by rfl
  have htokens : ∀ w ∈ words padded.toList, IsToken w := by
    rw [hwords]
    simp only [List.forall_mem_cons]
    refine ⟨⟨false, "012".toList, rfl, ?_⟩, ⟨true, "7".toList, rfl, ?_⟩,
      ⟨false, "0".toList, rfl, ?_⟩, ⟨true, "00".toList, rfl, ?_⟩, ⟨false, "0012".toList, rfl, ?_⟩,
      List.forall_mem_nil _⟩ <;>
      exact ⟨by decide, List.all_eq_true.1 rfl, by decide⟩
  have hkeeps : ∀ w ∈ words padded.toList, ¬ LosesSign w := by
    rw [hwords]
    rintro w hw ⟨ds, rfl, d, hd, hzero⟩
    simp at hw
    rw [hw, List.mem_singleton] at hd
    exact hzero hd
  have hfollows := (parse_tokens none padded.toList htokens).2 hkeeps
  obtain ⟨t, ht, hentries⟩ : ∃ t, parse none ("SAT\n".toList ++ padded.toList) = .ok (some t) ∧
      t.entries = [(12, true), (7, false)] := ⟨_, rfl, rfl⟩
  obtain ⟨u, hu, hvalues⟩ := hfollows.values (hfollows.not_conflict ht)
  rw [ht] at hu
  cases hu
  exact ⟨htokens, hkeeps, t, ht, hentries, hvalues⟩

/-- The minus sign before seven is lost: as a token of a clause it is the opposite literal. -/
theorem padded_minus_lost :
    (∀ w ∈ words "-07".toList, IsToken w) ∧
      (∃ l, literalOf "-07".toList = .ok l ∧ l.toInt = -7) ∧
      (∃ t, parse none "SAT\n-07".toList = .ok (some t) ∧ t.entries = [(7, true)]) ∧
      ¬ Follows none (words "-07".toList) (parse none "SAT\n-07".toList) := by
  have hwords : words "-07".toList = ["-07".toList] := by rfl
  have htoken : ∀ w ∈ words "-07".toList, IsToken w := by
    rw [hwords, List.forall_mem_singleton]
    exact ⟨true, "07".toList, rfl, by decide, List.all_eq_true.1 rfl, by decide⟩
  have hliteral : ∃ l, literalOf "-07".toList = .ok l ∧ l.toInt = -7 := ⟨_, rfl, rfl⟩
  have hread : ∃ t, parse none "SAT\n-07".toList = .ok (some t) ∧ t.entries = [(7, true)] :=
    ⟨_, rfl, rfl⟩
  refine ⟨htoken, hliteral, hread, fun hfollows => ?_⟩
  obtain ⟨t, ht, hentries⟩ := hread
  obtain ⟨u, hu, hvalues⟩ := hfollows.values (hfollows.not_conflict ht)
  rw [ht] at hu
  cases hu
  have hseven : t.get? 7 = some true := by
    rw [t.get?_eq_some_iff, hentries]
    exact List.mem_singleton_self _
  obtain ⟨w, hw, m, hm, hvar, hpositive⟩ := (hvalues 7 true).1 hseven
  rw [hwords, List.mem_singleton] at hw
  obtain ⟨l, hl, hinteger⟩ := hliteral
  rw [hw, hl] at hm
  cases hm
  rw [Literal.toInt, hpositive, hvar] at hinteger
  exact absurd hinteger (by decide)

end Read

end FactorSearch.SolutionText
