import FactorSearch.Log
import FactorSearch.Proofs.Branching
import FactorSearch.Proofs.RoundTrip
import FactorSearch.Proofs.Verdict

/-!
Factoring from end to end. The clauses of a multiplication are written as text, read as
a problem and searched. The search finds a model exactly if the product has factors of
the given widths, and the factors read from the model multiply to the product.
-/

namespace FactorSearch

open Circuit Restriction Text FactorSearch.Valuation

namespace Valuation

variable {v : Valuation}

theorem signed_toInt (v : Valuation) (l : Literal) : v.signed l.toInt = v.literal l := by
  have hpos := l.var_pos
  unfold signed literal
  rw [ProblemText.natAbs_toInt]
  congr 1
  unfold Literal.toInt
  cases l.positive with
  | true => exact decide_eq_true hpos
  | false => exact decide_eq_false (by simp only [Bool.false_eq_true, if_false]; omega)

theorem clause_ofLiterals {ls : List Literal} (h : (ls.map Literal.var).Nodup) :
    v.clause (Clause.ofLiterals ls) = true ↔ ∃ l ∈ ls, v.literal l = true := by
  unfold clause
  rw [Clause.literals_ofLiterals h, List.any_eq_true]

/-- Clauses of signed integers have the same models as the clauses that are read from them. -/
theorem models_iff_satisfies {lss : List (List Literal)}
    (h : ∀ ls ∈ lss, (ls.map Literal.var).Nodup) :
    v.Models (lss.map (fun ls => ls.map Literal.toInt)) ↔
      v.Satisfies (lss.map Clause.ofLiterals) := by
  unfold Models Satisfies
  rw [List.forall_mem_map, List.forall_mem_map]
  refine forall_congr' (fun ls => forall_congr' (fun hls => ?_))
  rw [clause_ofLiterals (h ls hls)]
  constructor
  · intro hexists
    obtain ⟨z, hz, htrue⟩ := hexists
    obtain ⟨l, hl, rfl⟩ := List.mem_map.1 hz
    exact ⟨l, hl, (signed_toInt v l) ▸ htrue⟩
  · intro hexists
    obtain ⟨l, hl, htrue⟩ := hexists
    exact ⟨l.toInt, List.mem_map_of_mem hl, (signed_toInt v l).trans htrue⟩

end Valuation

/-- Without a budget a search that is not interrupted finds a model or refutes its start. -/
theorem Search.solve_cases {σ : Type} {watch : Watch (StateM σ)} (hgo : ¬ Stops watch)
    (h : Heuristic) (pure : Bool) (n : Node) (ctx : Context) (s : σ) :
    (∃ m fixed, ((solve watch ⟨h, pure, none⟩ n ctx).run s).1.verdict = .satisfiable m ∧
      n.Descends m fixed ∧ ∀ c ∈ n.clauses, ∃ l ∈ fixed, l ∈ c.literals) ∨
    (((solve watch ⟨h, pure, none⟩ n ctx).run s).1.verdict = .unsatisfiable ∧
      ∀ v : Valuation, ¬ v.Satisfies n.clauses) := by
  obtain ⟨bs, htrace⟩ := exists_trace_run watch ⟨h, pure, none⟩ ctx.decisions ctx [⟨n, none⟩] s
  have hdecided := (htrace.mono hgo).not_aborted rfl
  show (∃ m fixed, (run watch _ _ _ _ |>.run s).1.verdict = .satisfiable m ∧ _) ∨
    ((run watch _ _ _ _ |>.run s).1.verdict = .unsatisfiable ∧ _)
  cases hverdict : ((run watch ⟨h, pure, none⟩ ctx.decisions ctx [⟨n, none⟩]).run s).1.verdict with
  | satisfiable m =>
    obtain ⟨fixed, hfixed, hclauses⟩ := htrace.exists_fixed hverdict
    exact Or.inl ⟨m, fixed, rfl, hfixed, hclauses⟩
  | unsatisfiable =>
    exact Or.inr ⟨rfl, fun v hv => htrace.not_satisfiable hverdict _ List.mem_cons_self ⟨v, hv⟩⟩
  | aborted => exact absurd hverdict hdecided

namespace Factorisation

variable {f : Factorisation} {t : Table Int Bool}

/-- A completed assignment has a value for every variable of the problem. -/
theorem get?_complete_of_mem {x : Int} (hx : x ∈ f.vars) :
    (f.complete t).get? x = some (ofTable (f.complete t) x) := by
  have hvalue : ∃ b, (f.complete t).get? x = some b := by
    rw [f.get?_complete, if_pos hx]
    cases t.get? x with
    | none => exact ⟨false, rfl⟩
    | some b => exact ⟨b, rfl⟩
  obtain ⟨b, hb⟩ := hvalue
  unfold ofTable
  rw [hb]
  rfl

/-- The factors of a completed assignment are the numbers of its valuation. -/
theorem factors_complete (h : ∀ o, ∀ x ∈ f.layout.bits o, x ∈ f.vars) :
    f.factors (some (f.complete t)) =
      .ok ⟨(ofTable (f.complete t)).number f.layout.first,
        (ofTable (f.complete t)).number f.layout.second,
        (ofTable (f.complete t)).number f.layout.output⟩ := by
  have hread : ∀ o, BitLayout.number (f.complete t) (f.layout.bits o) =
      .ok ((ofTable (f.complete t)).number (f.layout.bits o)) :=
    fun o => BitLayout.number_eq (fun x hx => get?_complete_of_mem (h o x hx))
  have hfirst := hread .first
  have hsecond := hread .second
  have houtput := hread .output
  simp only [BitLayout.bits] at hfirst hsecond houtput
  have hgiven : (some (f.complete t) <|> f.solution) = some (f.complete t) := rfl
  unfold factors
  rw [hgiven]
  simp only [hfirst, hsecond, houtput]
  rfl

end Factorisation

namespace Multiplication

open Search Multiplier

/-- A circuit of moderate width has variables that can be written. -/
theorem size_lt {k n m size : ℕ} (hk : k < 2 ^ 67) (hnm : n + m = k)
    (hsize : size ≤ (n + m) + n * m + 2 * ((n + m) * n) + (n + m)) : size < 10 ^ digitLimit := by
  have hproducts : n * m ≤ k * k := Nat.mul_le_mul (by omega) (by omega)
  have hadders : (n + m) * n ≤ k * k := Nat.mul_le_mul (by omega) (by omega)
  have hsquare : k * k ≤ 2 ^ 67 * 2 ^ 67 := Nat.mul_le_mul hk.le hk.le
  have hlarge : 10 ^ 42 ≤ 10 ^ digitLimit := Nat.pow_le_pow_right (by decide) (by decide)
  refine lt_of_lt_of_le ?_ hlarge
  generalize n * m = products at *
  generalize (n + m) * n = adders at *
  generalize k * k = square at *
  omega

theorem exists_toInt {z : Int} (hz : z ≠ 0) : ∃ l : Literal, l.toInt = z := by
  refine ⟨⟨z.natAbs, decide (0 < z), by omega⟩, ?_⟩
  unfold Literal.toInt
  by_cases hpos : 0 < z
  · rw [if_pos (decide_eq_true hpos)]
    show (z.natAbs : Int) = z
    omega
  · rw [if_neg (by simpa using hpos)]
    show -(z.natAbs : Int) = z
    omega

theorem exists_literals {clause : List Int} (h : ∀ z ∈ clause, z ≠ 0) :
    ∃ ls : List Literal, clause = ls.map Literal.toInt := by
  induction clause with
  | nil => exact ⟨[], rfl⟩
  | cons z rest ih =>
    rw [List.forall_mem_cons] at h
    obtain ⟨l, rfl⟩ := exists_toInt h.1
    obtain ⟨ls, rfl⟩ := ih h.2
    exact ⟨l :: ls, rfl⟩

/-- A clause over variables that can be written is readable. -/
theorem exists_readable {k : ℕ} (hk : k < 10 ^ digitLimit) {clause : List Int}
    (h : FitsIn k clause) :
    ∃ ls : List Literal, clause = ls.map Literal.toInt ∧ ProblemText.Readable ls := by
  obtain ⟨ls, rfl⟩ := exists_literals (fun z hz => (h.bounded z hz).1)
  refine ⟨ls, rfl, ?_, ?_, ?_⟩
  · intro heq
    subst heq
    exact h.nonempty rfl
  · intro l hl
    exact lt_of_le_of_lt (h.bounded _ (List.mem_map_of_mem hl)).2 hk
  · have hvars : ls.map Literal.var = ((ls.map Literal.toInt).map Int.natAbs).map Nat.cast := by
      rw [List.map_map, List.map_map]
      exact List.map_congr_left (fun l _ => (ProblemText.natAbs_toInt l).symm)
    rw [hvars]
    exact h.distinct.map Nat.cast_injective

theorem exists_readables {k : ℕ} (hk : k < 10 ^ digitLimit) {clauses : List (List Int)}
    (h : ∀ clause ∈ clauses, FitsIn k clause) :
    ∃ lss : List (List Literal), clauses = lss.map (fun ls => ls.map Literal.toInt) ∧
      ∀ ls ∈ lss, ProblemText.Readable ls := by
  induction clauses with
  | nil => exact ⟨[], rfl, List.forall_mem_nil _⟩
  | cons clause rest ih =>
    rw [List.forall_mem_cons] at h
    obtain ⟨ls, rfl, hls⟩ := exists_readable hk h.1
    obtain ⟨lss, rfl, hlss⟩ := ih h.2
    exact ⟨ls :: lss, rfl, List.forall_mem_cons.2 ⟨hls, hlss⟩⟩

variable {product n m : ℕ} {nontrivial : Bool} {M : Multiplier}

/-- A variable that occurs in the clauses as written occurs in those that are read. -/
theorem mem_vars_distinct {c : Circuit} {lss : List (List Literal)}
    (hclauses : c.clauses = lss.map (fun ls => ls.map Literal.toInt))
    (hreadable : ∀ ls ∈ lss, ProblemText.Readable ls) {x : Int} (hx : c.Occurs x) :
    x ∈ varsOf (Clause.distinct (lss.map Clause.ofLiterals)) := by
  obtain ⟨clause, hclause, z, hz, rfl⟩ := hx
  rw [hclauses] at hclause
  obtain ⟨ls, hls, rfl⟩ := List.mem_map.1 hclause
  obtain ⟨l, hl, rfl⟩ := List.mem_map.1 hz
  obtain ⟨d, hd, hsame⟩ := Clause.exists_mem_distinct (List.mem_map_of_mem hls)
  rw [Clause.literals_ofLiterals (hreadable ls hls).distinct] at hsame
  rw [ProblemText.natAbs_toInt, mem_varsOf]
  exact ⟨d, hd, List.mem_map_of_mem ((hsame l).2 hl)⟩

/-- The problem that is read from the text of a circuit has the models of the circuit. -/
structure ReadsBack (M : Multiplier) (f : Factorisation) : Prop where
  layout : f.layout = M.layout
  path : f.root.path = []
  satisfies_iff : ∀ v : Valuation, v.Satisfies f.root.clauses ↔ v.Models M.circuit.clauses
  mem_vars : ∀ o, ∀ x ∈ M.layout.bits o, x ∈ f.vars

theorem readableLayout (hM : M.Encodes product n m nontrivial) (hn : 0 < n) (hm : 0 < m)
    (hsize : M.circuit.size < 10 ^ digitLimit) : ProblemText.ReadableLayout M.layout := by
  obtain ⟨hfirst, hsecond, houtput⟩ := hM.length
  intro o
  constructor
  · apply List.ne_nil_of_length_pos
    cases o with
    | output => rw [BitLayout.bits, houtput]; omega
    | first => rw [BitLayout.bits, hfirst]; omega
    | second => rw [BitLayout.bits, hsecond]; omega
  · intro x hx
    obtain ⟨hpos, hle⟩ := hM.has o x hx
    exact ⟨hpos, by omega⟩

/-- A circuit that is printed is read without notice, whatever the header. -/
theorem ofText_encoding {lss : List (List Literal)}
    (hclauses : M.circuit.clauses = lss.map (fun ls => ls.map Literal.toInt))
    (hreadable : ∀ ls ∈ lss, ProblemText.Readable ls)
    (hlayout : ProblemText.ReadableLayout M.layout) {header : List Char}
    (hheader : ProblemText.Heading header) (product width : ℕ) (source : Option String) :
    Factorisation.ofText source (ProblemText.printed
        ((encoding product width M).comments.map String.toList) header M.circuit.clauses) =
      ([LogEntry.parsed source ⟨lss.map Clause.ofLiterals, M.layout⟩],
        .ok (Factorisation.ofProblem ⟨lss.map Clause.ofLiterals, M.layout⟩ source)) := by
  unfold Factorisation.ofText
  rw [ProblemText.parse_encoding hclauses hreadable hlayout hheader product width source]
  rfl

theorem exists_readsBack (hM : M.Encodes product n m nontrivial) (hn : 0 < n) (hm : 0 < m)
    (hsize : M.circuit.size < 10 ^ digitLimit) (width : ℕ) (source : Option String) :
    ∃ entry f, (∀ header, ProblemText.Heading header →
        Factorisation.ofText source (ProblemText.printed
          ((encoding product width M).comments.map String.toList) header M.circuit.clauses) =
            ([entry], .ok f)) ∧ ReadsBack M f := by
  obtain ⟨lss, hclauses, hreadable⟩ := exists_readables hsize hM.wellFormed
  have hlayout := readableLayout hM hn hm hsize
  have htext := fun header (hheader : ProblemText.Heading header) =>
    ofText_encoding hclauses hreadable hlayout hheader product width source
  refine ⟨_, _, htext, rfl, rfl, ?_, ?_⟩
  · intro v
    show v.Satisfies (Clause.distinct (lss.map Clause.ofLiterals)) ↔ _
    rw [satisfies_distinct, hclauses,
      models_iff_satisfies (fun ls hls => (hreadable ls hls).distinct)]
  · exact fun o x hx => mem_vars_distinct hclauses hreadable (hM.occurs hn hm o x hx)

/-- Two factors of a product with the given widths. -/
structure Splits (product n m : ℕ) (nontrivial : Bool) (a b : ℕ) : Prop where
  first_lt : a < 2 ^ n
  second_lt : b < 2 ^ m
  product_eq : a * b = product
  nontrivial_le : nontrivial = true → 2 ≤ a ∧ 2 ≤ b

theorem splits_of_models (hM : M.Encodes product n m nontrivial) {v : Valuation}
    (hv : v.Models M.circuit.clauses) :
    Splits product n m nontrivial (v.number M.layout.first) (v.number M.layout.second) := by
  obtain ⟨hproduct, hnontrivial, -⟩ := hM.holds v hv
  refine ⟨?_, ?_, hproduct, hnontrivial⟩
  · rw [← hM.length.1]
    exact v.number_lt _
  · rw [← hM.length.2.1]
    exact v.number_lt _

theorem exists_models_of_splits (hM : M.Encodes product n m nontrivial) {a b : ℕ}
    (h : Splits product n m nontrivial a b) : ∃ v : Valuation, v.Models M.circuit.clauses := by
  obtain ⟨v, hv, -⟩ :=
    hM.exists_models a b h.first_lt h.second_lt h.product_eq h.nontrivial_le
  exact ⟨v, hv⟩

/-- A path that decides every clause of the problem is read as two factors. -/
theorem exists_factors (hM : M.Encodes product n m nontrivial) {f : Factorisation}
    (hf : ReadsBack M f) {node : Node} {fixed : List Literal}
    (hfixed : f.root.Descends node fixed)
    (hclauses : ∀ c ∈ f.root.clauses, ∃ l ∈ fixed, l ∈ c.literals) :
    ∃ values a b, node.assignmentMap = .ok values ∧
      f.factors (some (f.complete values)) = .ok ⟨a, b, product⟩ ∧
      Splits product n m nontrivial a b := by
  obtain ⟨values, hvalues⟩ := hfixed.exists_assignmentMap hf.path
  have hverify := Factorisation.verify_complete hfixed hclauses hvalues
  have hmodel := (hf.satisfies_iff _).1 (Factorisation.satisfies_of_verify hverify)
  have hfactors := Factorisation.factors_complete (t := values)
    (fun o x hx => hf.mem_vars o x (hf.layout ▸ hx))
  rw [hf.layout, (hM.holds _ hmodel).2.2] at hfactors
  exact ⟨values, _, _, hvalues, hfactors, splits_of_models hM hmodel⟩

theorem not_splits_of_refuted (hM : M.Encodes product n m nontrivial) {f : Factorisation}
    (hf : ReadsBack M f) (hrefuted : ∀ v : Valuation, ¬ v.Satisfies f.root.clauses) :
    ¬ ∃ a b, Splits product n m nontrivial a b := by
  intro hexists
  obtain ⟨a, b, hsplits⟩ := hexists
  obtain ⟨v, hv⟩ := exists_models_of_splits hM hsplits
  exact hrefuted v ((hf.satisfies_iff v).2 hv)

/-- Factoring is correct from end to end, whatever the room and whatever header stands above
the clauses: the text of a multiplication is read without notice, the search finds a model
exactly if the product splits, and refutes it otherwise, and a model that is found is read
as two factors and their product. -/
theorem factoring_correct (h : Admissible product n m nontrivial) (room : ℕ)
    (heuristic : Heuristic) (pure : Bool) (source : Option String) :
    (30 * Capacity.mostWordsIn room < n + m + 60 ∧
      ∃ e, Capacity.checkPower room (n + m) = .error e ∧
        dimacs ⟨product, n, m, nontrivial⟩ room = .error (.capacity e)) ∨
    ∃ d entry f, dimacs ⟨product, n, m, nontrivial⟩ room = .ok d ∧
      Factorisation.ofText source d.text.toList = ([entry], .ok f) ∧
      (∀ header, ProblemText.Heading header →
        Factorisation.ofText source (ProblemText.printed (d.comments.map String.toList) header
          d.clauses) = ([entry], .ok f)) ∧
      ∀ (σ : Type) (watch : Watch (StateM σ)) (ctx : Context) (s : σ), ¬ Stops watch →
        let verdict := ((solve watch ⟨heuristic, pure, none⟩ f.root ctx).run s).1.verdict
        (verdict.status = .satisfiable ↔ ∃ a b, Splits product n m nontrivial a b) ∧
        (verdict.status = .unsatisfiable ↔ ¬ ∃ a b, Splits product n m nontrivial a b) ∧
        ∀ node, verdict = .satisfiable node → ∃ values a b, node.assignmentMap = .ok values ∧
          f.factors (some (f.complete values)) = .ok ⟨a, b, product⟩ ∧
          Splits product n m nontrivial a b := by
  have hM : (build product n m nontrivial).Encodes product n m nontrivial :=
    build_encodes h.fits h.wide
  have hdimacs := dimacs_eq h room
  cases hcheck : Capacity.checkPower room (n + m) with
  | error e =>
    rw [hcheck] at hdimacs
    exact Or.inl ⟨Capacity.lt_of_checkPower_error hcheck, e, rfl, hdimacs⟩
  | ok _ =>
    rw [hcheck] at hdimacs
    have hsize := size_lt (Capacity.lt_of_checkPower hcheck) rfl hM.size
    obtain ⟨entry, f, hprinted, hf⟩ := exists_readsBack hM h.first h.second hsize (n + m) source
    have htext : Factorisation.ofText source
        (encoding product (n + m) (build product n m nontrivial)).text.toList = ([entry], .ok f) := by
      rw [ProblemText.toList_text]
      exact hprinted _ (ProblemText.heading_header _)
    refine Or.inr ⟨_, entry, f, hdimacs, htext, hprinted, ?_⟩
    intro σ watch ctx s hgo verdict
    rcases solve_cases hgo heuristic pure f.root ctx s with
      ⟨node, fixed, hverdict, hfixed, hclauses⟩ | ⟨hverdict, hrefuted⟩
    · have hfactors := exists_factors hM hf hfixed hclauses
      have hsplits : ∃ a b, Splits product n m nontrivial a b := by
        obtain ⟨_, a, b, -, -, hab⟩ := hfactors
        exact ⟨a, b, hab⟩
      have hout : verdict = .satisfiable node := hverdict
      refine ⟨⟨fun _ => hsplits, fun _ => ?_⟩, ⟨fun hunsat => ?_, fun hnone => ?_⟩, ?_⟩
      · rw [hout]
        rfl
      · rw [hout] at hunsat
        cases hunsat
      · exact absurd hsplits hnone
      · intro found hfound
        rw [hout] at hfound
        cases hfound
        exact hfactors
    · have hnone := not_splits_of_refuted hM hf hrefuted
      have hout : verdict = .unsatisfiable := hverdict
      refine ⟨⟨fun hsat => ?_, fun hsome => absurd hsome hnone⟩, ⟨fun _ => hnone, fun _ => ?_⟩, ?_⟩
      · rw [hout] at hsat
        cases hsat
      · rw [hout]
        rfl
      · intro found hfound
        rw [hout] at hfound
        cases hfound

/-- Six is factored with two bits for each factor, also below a header that counts nothing. -/
theorem exists_factors_six :
    ∃ d entry f node values a b,
      dimacs ⟨6, 2, 2, true⟩ Capacity.usualRoom = .ok d ∧
      Factorisation.ofText none d.text.toList = ([entry], .ok f) ∧
      Factorisation.ofText none (ProblemText.printed (d.comments.map String.toList)
        "p cnf 0 0".toList d.clauses) = ([entry], .ok f) ∧
      ((solve recorder ⟨.weighted, true, none⟩ f.root Context.fresh).run []).1.verdict =
        .satisfiable node ∧
      node.assignmentMap = .ok values ∧
      f.factors (some (f.complete values)) = .ok ⟨a, b, 6⟩ ∧ Splits 6 2 2 true a b := by
  rcases factoring_correct admissible_six Capacity.usualRoom .weighted true none with
    ⟨-, e, hcheck, -⟩ | ⟨d, entry, f, hdimacs, htext, hprinted, hsolve⟩
  · exact absurd (Capacity.lt_of_checkPower_usualRoom hcheck) (by decide)
  · have hbare := hprinted "p cnf 0 0".toList ⟨rfl, by decide⟩
    obtain ⟨hiff, -, hfactors⟩ := hsolve _ recorder Context.fresh [] not_stops_recorder
    have hsplits : Splits 6 2 2 true 2 3 := by
      refine ⟨by decide, by decide, rfl, fun _ => by decide⟩
    have hstatus := hiff.2 ⟨2, 3, hsplits⟩
    cases hverdict :
        ((solve recorder ⟨.weighted, true, none⟩ f.root Context.fresh).run []).1.verdict with
    | satisfiable node =>
      obtain ⟨values, a, b, hvalues, hread, hsplit⟩ := hfactors node hverdict
      exact ⟨d, entry, f, node, values, a, b, hdimacs, htext, hbare, hverdict, hvalues, hread,
        hsplit⟩
    | unsatisfiable =>
      rw [hverdict] at hstatus
      cases hstatus
    | aborted =>
      rw [hverdict] at hstatus
      cases hstatus

end Multiplication

end FactorSearch
