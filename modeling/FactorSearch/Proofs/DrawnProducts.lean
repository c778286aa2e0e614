import FactorSearch.Generation
import FactorSearch.Proofs.Encoding
import FactorSearch.Proofs.FileHost

/-!
Products that are drawn. Whatever numbers a host draws, they are as many as were asked for and
lie below the bound that the widths of the factors set, and this bound has been formed before.
So clauses are written for every product that is drawn.
-/

namespace FactorSearch.Generation

open FileHost

/-- So many numbers that factors with these widths may multiply to, none too long to be written,
in a room where the power of two that bounds them can be formed. -/
structure Drawn (room : ℕ) (first second count : ℤ) (products : List ℤ) : Prop where
  length_eq : (products.length : ℤ) = count
  two_le : ∀ p ∈ products, 2 ≤ p
  lt_bound : ∀ p ∈ products, p < 2 ^ (first + second).toNat
  narrow : products ≠ [] → first + second ≤ 63
  roomy : Capacity.checkPower room (first + second).toNat = .ok ()

variable {room : ℕ} {first second count : ℤ} {products : List ℤ} {nontrivial : Bool}
  {r : GenerationRequest}

/-- Clauses are written for every product that is drawn for factors that have bits. -/
theorem Drawn.exists_dimacs (h : Drawn room first second count products) (hfirst : 1 ≤ first)
    (hsecond : 1 ≤ second) (hwide : nontrivial = true → 2 ≤ first ∧ 2 ≤ second) {p : ℤ}
    (hp : p ∈ products) :
    ∃ d, Multiplication.dimacs ⟨p, first, second, nontrivial⟩ room = .ok d := by
  have htwo := h.two_le p hp
  have hlt := h.lt_bound p hp
  have hnarrow := h.narrow (List.ne_nil_of_mem hp)
  have hroomy := h.roomy
  obtain ⟨n, rfl⟩ := Int.eq_ofNat_of_zero_le (by omega : 0 ≤ first)
  obtain ⟨m, rfl⟩ := Int.eq_ofNat_of_zero_le (by omega : 0 ≤ second)
  obtain ⟨product, rfl⟩ := Int.eq_ofNat_of_zero_le (by omega : 0 ≤ p)
  have hwidth : ((n : ℤ) + m).toNat = n + m := by omega
  rw [hwidth] at hlt hroomy
  have hfits : product < 2 ^ (n + m) := by exact_mod_cast hlt
  have hshort : 2 ^ (n + m) ≤ 2 ^ 63 := Nat.pow_le_pow_right (by decide) (by omega)
  have hlong : 10 ^ 19 ≤ 10 ^ Text.digitLimit := Nat.pow_le_pow_right (by decide) (by decide)
  have hadmissible : Multiplication.Admissible product n m nontrivial := by
    refine ⟨by omega, by omega, hfits, ?_, ?_⟩
    · exact lt_of_lt_of_le (by omega : product < 10 ^ 19) hlong
    · intro hnontrivial
      obtain ⟨hn, hm⟩ := hwide hnontrivial
      omega
  rw [Multiplication.dimacs_eq hadmissible, hroomy]
  exact ⟨_, rfl⟩

theorem bits_eq_ok {use : BareUse} {a b : ℤ} (h : r.bits use = .ok (a, b)) :
    r.firstBits = .given a ∧ r.secondBits = .given b := by
  unfold GenerationRequest.bits at h
  split at h <;> cases h
  exact ⟨‹_›, ‹_›⟩

theorem checkPower_of_checkShift {shift : ℤ} (h : checkShift room shift = .ok ()) :
    Capacity.checkPower room shift.toNat = .ok () := by
  unfold checkShift at h
  split at h
  · cases h
  · cases hpower : Capacity.checkPower room shift.toNat with
    | error e =>
      rw [hpower] at h
      cases h
    | ok _ => rfl

theorem checkRange_eq_ok {shift : ℤ} {bound : { bound : ℕ // 2 < bound }}
    (h : checkRange shift = .ok bound) : shift ≤ 63 ∧ bound.val = 2 ^ shift.toNat := by
  unfold checkRange at h
  split at h
  · cases h
  rename_i hshift
  split at h
  · cases h
    exact ⟨by omega, rfl⟩
  · cases h

theorem nonneg_of_checkCount (h : checkCount room count = .ok ()) : 0 ≤ count := by
  unfold checkCount at h
  split at h
  · cases h
  · split at h
    · cases h
    · omega

/-- What the host draws is a row of products, wherever its numbers come from. -/
theorem drawn_numbers {bound : ℕ}
    (hroomy : Capacity.checkPower room (first + second).toNat = .ok ())
    (hrange : first + second ≤ 63 ∧ bound = 2 ^ (first + second).toNat) (hcount : 0 ≤ count)
    (d : Draw bound count.toNat) :
    Drawn room first second count (d.numbers.map Int.ofNat) where
  length_eq := by
    rw [List.length_map, d.length_numbers]
    omega
  two_le p hp := by
    obtain ⟨n, hn, rfl⟩ := List.mem_map.1 hp
    exact Int.ofNat_le.2 (d.two_le n hn)
  lt_bound p hp := by
    obtain ⟨n, hn, rfl⟩ := List.mem_map.1 hp
    have hlt : n < 2 ^ (first + second).toNat := hrange.2 ▸ d.lt_bound n hn
    show (n : ℤ) < 2 ^ (first + second).toNat
    exact_mod_cast hlt
  narrow _ := hrange.1
  roomy := hroomy

/-- The settings were given, and the products are what they ask for. -/
def Asked (room : ℕ) (r : GenerationRequest) (count : Setting ℤ) (products : List ℤ) : Prop :=
  ∃ first second n, r.firstBits = .given first ∧ r.secondBits = .given second ∧
    count = .given n ∧ Drawn room first second n products

section Host

variable {σ : Type} [FileHost σ] {w : World}

theorem tries_lifted {ε α : Type} {f : ε → Fault} {x : Except ε α}
    {post : Except Fault α → World → Prop} (hok : ∀ a, x = .ok a → post (.ok a) w)
    (herror : ∀ e, post (.error e) w) : Tries w (lifted f x : ExceptT Fault (StateM σ) α) post := by
  refine Ends.pure ?_
  cases x with
  | ok a => exact hok a rfl
  | error e => exact herror _

theorem tries_draw (r : GenerationRequest) (count : Setting ℤ) (w : World) :
    Tries w (draw r count : ExceptT Fault (StateM σ) (List ℤ)) fun result w' =>
      w' = w ∧ ∀ products, result = .ok products →
        Asked (Host.room (StateM σ)) r count products := by
  have hrefused : ∀ e : Fault, w = w ∧ ∀ products, Except.error e = .ok products →
      Asked (Host.room (StateM σ)) r count products := fun e => ⟨rfl, fun _ h => nomatch h⟩
  unfold draw
  refine Tries.bind (tries_lifted (fun seed _ => ?_) hrefused)
  refine Tries.bind (tries_lifted (fun widths hwidths => ?_) hrefused)
  obtain ⟨first, second⟩ := widths
  obtain ⟨hfirst, hsecond⟩ := bits_eq_ok hwidths
  refine Tries.bind (tries_lifted (fun _ hshift => ?_) hrefused)
  have hroomy := checkPower_of_checkShift hshift
  cases count with
  | bare => exact Tries.bind (tries_lifted (fun _ _ => Tries.throw (hrefused _)) hrefused)
  | given n =>
    by_cases hzero : n = 0
    · subst hzero
      refine Tries.pure ⟨rfl, ?_⟩
      rintro _ ⟨⟩
      exact ⟨first, second, 0, hfirst, hsecond, rfl, rfl, List.forall_mem_nil _,
        List.forall_mem_nil _, fun h => absurd rfl h, hroomy⟩
    · simp only [hzero, if_false]
      refine Tries.bind (tries_lifted (fun bound hrange => ?_) hrefused)
      refine Tries.bind (tries_lifted (fun _ hcount => ?_) hrefused)
      refine Tries.bind (Tries.of_keeps (draw_keeps seed _ _ _) fun d => Tries.pure ⟨rfl, ?_⟩)
      rintro _ ⟨⟩
      exact ⟨first, second, n, hfirst, hsecond, rfl, drawn_numbers hroomy
        (checkRange_eq_ok hrange) (nonneg_of_checkCount hcount) d⟩

/-- Drawing leaves the files as they are, also where it is refused. -/
theorem keeps_draw (r : GenerationRequest) (count : Setting ℤ) :
    Keeps files (draw r count : ExceptT Fault (StateM σ) (List ℤ)).run :=
  fun s => (tries_draw r count (files s) s rfl).1

/-- The products that are drawn are as many as were asked for and lie from two up to below the
bound. Clauses are written for each of them if both factors have bits, two or more where
trivial factors are excluded. -/
theorem drawn_products_written {count : Setting ℤ} {s s' : σ}
    (h : (draw r count : ExceptT Fault (StateM σ) (List ℤ)).run.run s = (.ok products, s')) :
    ∃ first second, r.firstBits = .given first ∧ r.secondBits = .given second ∧
      count = .given products.length ∧
      (∀ p ∈ products, 2 ≤ p ∧ p < 2 ^ (first + second).toNat) ∧
      (1 ≤ first → 1 ≤ second → (r.nontrivial = true → 2 ≤ first ∧ 2 ≤ second) →
        ∀ p ∈ products, ∃ d, Multiplication.dimacs ⟨p, first, second, r.nontrivial⟩
          (Host.room (StateM σ)) = .ok d) := by
  have hdraw := (tries_draw r count (files s) s rfl).2 products
  rw [h] at hdraw
  obtain ⟨first, second, n, hfirst, hsecond, hcount, hdrawn⟩ := hdraw rfl
  refine ⟨first, second, hfirst, hsecond, ?_, ?_, ?_⟩
  · rw [hcount, hdrawn.length_eq]
  · exact fun p hp => ⟨hdrawn.two_le p hp, hdrawn.lt_bound p hp⟩
  · exact fun hone hother hwide p hp => hdrawn.exists_dimacs hone hother hwide hp

example : ((draw ⟨.given 2, .given 2, .drawn (.given 3), true, .bare, .bare⟩ (.given 3) :
    ExceptT Fault (StateM World) (List ℤ)).run.run World.empty).1.toOption = some [2, 2, 2] := by
  decide

end Host

end FactorSearch.Generation
