import ParseChart.Proofs.Earley.Children
import ParseChart.Proofs.Grammar.Rewriting
/-!
# Prediction

Which rules are predicted at a position, and so which items a parse reaches, said by rewriting: a symbol
is predicted where the start symbol derives the words up to there, followed by the symbol and anything
else. The words before the position have to be terminals, as a word that is the name of a symbol with
rules is never scanned.
-/

namespace ParseChart.Earley

variable {g : Grammar} {p : Earley} {w : List String} {α β : List String} {i j k : Nat} {cs : List Item} {a b : String}

/-- The start symbol derives the words up to `i`, then the symbol, then anything. -/
def Expected (p : Earley) (w : List String) (i : Nat) (a : String) : Prop :=
  ∃ rest, p.grammar.Derives [p.start] (w.take i ++ a :: rest)

/-- A symbol is predictable at `i` if it is expected there after terminals. -/
def Predictable (p : Earley) (w : List String) (i : Nat) (a : String) : Prop :=
  (∀ b ∈ w.take i, p.grammar.isTerminal b = true) ∧ Expected p w i a

/-- The items of a finished chart, for what it takes that a symbol is predicted at a position. -/
def Charted (p : Earley) (w : List String) (predicted : Nat → String → Prop) (x : Item) : Prop :=
  ∃ r d i j cs, x = dotted r d i j cs ∧ d ≤ r.rhs.length ∧ i ≤ j ∧ j ≤ w.length ∧
    (r = p.topRule ∧ i = 0 ∨ r ∈ p.grammar.rules ∧ predicted i r.lhs) ∧
    Spells p.grammar w (r.rhs.take d) i j cs

/-! ## What is reached is charted -/

theorem Spells.derives (h : Spells g w α i j cs) :
    g.Derives α (slice w i j) ∧ ∀ a ∈ slice w i j, g.isTerminal a = true := by
  induction h with
  | nil =>
    rw [slice_self]
    exact ⟨.refl _, by simp⟩
  | @word α i j cs a h ha hw ih =>
    rw [← slice_append h.bounds.1 (Nat.le_succ j), slice_succ hw]
    refine ⟨?_, fun b hb => ?_⟩
    · simpa using ih.1.context [] [a]
    · rcases List.mem_append.1 hb with hb | hb
      · exact ih.2 b hb
      · exact List.mem_singleton.1 hb ▸ ha
  | @item α i j cs s k ds h hs h' ih ih' =>
    rw [← slice_append h.bounds.1 h'.bounds.1]
    refine ⟨?_, fun b hb => ?_⟩
    · have h₁ := ih.1.context [] [s.lhs]
      have h₂ := ((Grammar.derives_rule hs).trans ih'.1).context (slice w i j) []
      simp only [List.nil_append, List.append_nil] at h₁ h₂
      exact h₁.trans h₂
    · rcases List.mem_append.1 hb with hb | hb
      · exact ih.2 b hb
      · exact ih'.2 b hb

theorem take_eq_slice (w : List String) (i : Nat) : w.take i = slice w 0 i := by simp [slice]

/-- From the right side of a rule at `i`, its symbols before the dot spelled out up to `j`. -/
theorem predictable_of_spells (rest : List String) (ht : ∀ b ∈ w.take i, p.grammar.isTerminal b = true)
    (hd : p.grammar.Derives [p.start] (w.take i ++ (α ++ a :: rest))) (hs : Spells p.grammar w α i j cs) :
    Predictable p w j a := by
  obtain ⟨hij, -⟩ := hs.bounds
  obtain ⟨hα, hα'⟩ := hs.derives
  rw [take_eq_slice] at ht hd
  constructor
  · rw [take_eq_slice, ← slice_append (Nat.zero_le i) hij]
    intro b hb
    rcases List.mem_append.1 hb with hb | hb
    · exact ht b hb
    · exact hα' b hb
  · refine ⟨rest, hd.trans ?_⟩
    rw [take_eq_slice, ← slice_append (Nat.zero_le i) hij, List.append_assoc]
    exact hα.context _ _

theorem take_of_getElem? {r : Rule} {d : Nat} (h : r.rhs[d]? = some a) :
    r.rhs.take (d + 1) = r.rhs.take d ++ [a] ∧ r.rhs = r.rhs.take d ++ a :: r.rhs.drop (d + 1) := by
  obtain ⟨hd, rfl⟩ := List.getElem?_eq_some_iff.1 h
  refine ⟨by simp [List.take_add_one], ?_⟩
  rw [← List.drop_eq_getElem_cons hd, List.take_append_drop]

theorem Reached.charted (htop : ∀ r ∈ p.grammar.rules, topSymbol ∉ r.rhs) (hstart : p.start ≠ topSymbol)
    {r : Rule} {d : Nat} (h : Reached p w r d i j cs) :
    (r = p.topRule ∧ i = 0 ∨ r ∈ p.grammar.rules ∧ Predictable p w i r.lhs) ∧
      Spells p.grammar w (r.rhs.take d) i j cs := by
  -- No rule has the symbol above the start on its right side, so a completed item is never that of the start.
  have hnot : ∀ {r d i j cs}, Reached p w r d i j cs → r.rhs[d]? ≠ some topSymbol := fun hr he => by
    rcases hr.rule with rfl | hr
    · rw [topRule, List.getElem?_singleton] at he
      split at he
      · exact hstart (Option.some.inj he)
      · cases he
    · exact htop _ hr (List.mem_of_getElem? he)
  induction h with
  | start => exact ⟨.inl ⟨rfl, rfl⟩, .nil (Nat.zero_le _)⟩
  | @predict r d i j cs s hr hs hd ih =>
    refine ⟨.inr ⟨hs, ?_⟩, .nil hr.bounds.2⟩
    obtain ⟨hpred, hspells⟩ := ih
    have hrhs := (take_of_getElem? hd).2
    rcases hpred with ⟨rfl, rfl⟩ | ⟨hr, ht, rest, hder⟩
    · refine predictable_of_spells (p.topRule.rhs.drop (d + 1)) (by simp) ?_ hspells
      rw [← hrhs]
      exact .refl _
    · refine predictable_of_spells (r.rhs.drop (d + 1) ++ rest) ht ?_ hspells
      have hrule := (Grammar.derives_rule hr).context (w.take i) rest
      rw [hrhs] at hrule
      simpa using hder.trans hrule
  | scan hr ha ht hw ih =>
    rw [(take_of_getElem? ha).1]
    exact ⟨ih.1, ih.2.word ht hw⟩
  | @complete r d i j cs s k ds hr hs hd ih ih' =>
    rw [(take_of_getElem? hd).1]
    refine ⟨ih.1, ?_⟩
    rcases hs.rule with rfl | hsr
    · exact absurd hd (hnot hr)
    · have := ih'.2
      rw [List.take_length] at this
      exact ih.2.item hsr this

/-! ## What is charted is reached -/

/-- Prediction leads from a symbol at one position to a symbol at another. -/
inductive Leads (g : Grammar) (w : List String) : String → Nat → String → Nat → Prop
  | refl (a : String) (i : Nat) : Leads g w a i a i
  | step {s : Rule} {before after : List String} {a b : String} {i j k : Nat} {cs : List Item} : s ∈ g.rules →
      s.rhs = before ++ b :: after → Spells g w before i j cs → Leads g w b j a k → Leads g w s.lhs i a k

theorem spells_words (ht : ∀ b ∈ slice w i j, g.isTerminal b = true) (hij : i ≤ j) (hj : j ≤ w.length) :
    ∃ cs, Spells g w (slice w i j) i j cs := by
  induction hij with
  | refl =>
    rw [slice_self]
    exact ⟨[], .nil hj⟩
  | @step j hij ih =>
    have hw : w[j]? = some w[j] := List.getElem?_eq_getElem hj
    rw [← slice_append hij (Nat.le_succ j), slice_succ hw] at ht ⊢
    obtain ⟨cs, hcs⟩ := ih (fun b hb => ht b (List.mem_append_left _ hb)) (by omega)
    exact ⟨_, hcs.word (ht _ (by simp)) hw⟩

/-- Where in a string of two parts one of its symbols stands. -/
theorem append_eq_append_cons {α β γ δ : List String} (h : α ++ β = γ ++ a :: δ) :
    (∃ ε, γ = α ++ ε ∧ β = ε ++ a :: δ) ∨ ∃ ε, α = γ ++ a :: ε ∧ δ = ε ++ β := by
  rcases List.append_eq_append_iff.1 h with ⟨ε, hγ, hβ⟩ | ⟨ε, hα, hδ⟩
  · exact .inl ⟨ε, hγ, hβ⟩
  · cases ε with
    | nil => exact .inl ⟨[], by simpa using hα.symm, hδ.symm⟩
    | cons e ε =>
      cases hδ
      exact .inr ⟨ε, hα, rfl⟩

/-- Where words are derived with a symbol after them, the string is spelled out up to the symbol that leads there. -/
theorem exists_leads (ht : ∀ b ∈ slice w i j, g.isTerminal b = true) (hij : i ≤ j) (hj : j ≤ w.length)
    {rest : List String} (h : g.Derives α (slice w i j ++ a :: rest)) :
    ∃ β b γ k cs, α = β ++ b :: γ ∧ Spells g w β i k cs ∧ Leads g w b k a j := by
  -- From the last rewriting back to the first; the spelled symbols are followed through each rewriting.
  induction h using Relation.ReflTransGen.head_induction_on with
  | refl =>
    obtain ⟨cs, hcs⟩ := spells_words ht hij hj
    exact ⟨_, a, rest, j, cs, rfl, hcs, .refl a j⟩
  | head hr _ ih =>
    obtain ⟨β, b, γ, k, cs, he, hcs, hl⟩ := ih
    obtain @⟨before, after, s, hs⟩ := hr
    rcases append_eq_append_cons he with ⟨δ, rfl, he'⟩ | ⟨δ, rfl, -⟩
    · obtain ⟨m, ds, es, hds, hes, rfl⟩ := spells_append hcs
      rcases append_eq_append_cons he' with ⟨ε, rfl, rfl⟩ | ⟨ε, hrhs, -⟩
      · -- Right of the rewritten symbol, which is spelled out as the item of its rule.
        obtain ⟨n, fs, gs, hfs, hgs, rfl⟩ := spells_append hes
        exact ⟨before ++ [s.lhs] ++ ε, b, γ, k, _, by simp, (hds.item hs hfs).append hgs, hl⟩
      · -- Inside: the rewritten symbol leads to it.
        exact ⟨before, s.lhs, after, m, ds, rfl, hds, .step hs hrhs hes hl⟩
    · -- Left of it.
      exact ⟨β, b, δ ++ s.lhs :: after, k, cs, by simp, hcs, hl⟩

theorem getElem?_of_append {l rest : List String} (h : l = α ++ [a] ++ rest) : l[α.length]? = some a := by
  simp [h]

theorem Spells.reached {r : Rule} {rest : List String} (h : Spells p.grammar w α i j cs) (hr : r.rhs = α ++ rest)
    (h0 : Reached p w r 0 i i []) : Reached p w r α.length i j cs := by
  induction h generalizing r rest with
  | nil => exact h0
  | word _ ha hw ih =>
    rw [List.length_append]
    exact (ih (by simpa using hr) h0).scan (getElem?_of_append hr) ha hw
  | item _ hs _ ih ih' =>
    rw [List.length_append]
    have hparent := ih (by simpa using hr) h0
    have hchild := ih' (List.append_nil _).symm (hparent.predict hs (getElem?_of_append hr))
    exact hparent.complete hchild (getElem?_of_append hr)

theorem Leads.reached (h : Leads p.grammar w b j a k)
    (h0 : ∀ s ∈ p.grammar.rules, s.lhs = b → Reached p w s 0 j j []) :
    ∀ s ∈ p.grammar.rules, s.lhs = a → Reached p w s 0 k k [] := by
  induction h with
  | refl => exact h0
  | step hs hrhs hsp _ ih =>
    apply ih
    intro t ht hta
    have hparent := hsp.reached hrhs (h0 _ hs rfl)
    exact hparent.predict ht (by rw [hrhs, hta]; simp)

theorem reached_of_predictable (hi : i ≤ w.length) (h : Predictable p w i a) :
    ∀ s ∈ p.grammar.rules, s.lhs = a → Reached p w s 0 i i [] := by
  obtain ⟨ht, rest, hd⟩ := h
  rw [take_eq_slice] at ht hd
  obtain ⟨β, b, γ, k, cs, he, hcs, hl⟩ := exists_leads ht (Nat.zero_le i) hi hd
  obtain ⟨rfl, hb, rfl⟩ : β = [] ∧ b = p.start ∧ γ = [] := by
    cases β with
    | nil =>
      cases he
      exact ⟨rfl, rfl, rfl⟩
    | cons _ β => simp at he
  obtain ⟨rfl, -⟩ := spells_nil hcs
  exact hl.reached fun s hs hsb => Reached.start.predict hs (by simp [topRule, hsb, hb])

/-- The items that a parse reaches are those whose rule is predictable where they start and whose children
spell out the symbols before the dot. -/
theorem reached_iff_charted (htop : ∀ r ∈ p.grammar.rules, topSymbol ∉ r.rhs) (hstart : p.start ≠ topSymbol)
    {x : Item} :
    (∃ r d i j cs, x = dotted r d i j cs ∧ Reached p w r d i j cs) ↔ Charted p w (Predictable p w) x := by
  constructor
  · rintro ⟨r, d, i, j, cs, rfl, hr⟩
    obtain ⟨hpred, hsp⟩ := hr.charted htop hstart
    exact ⟨r, d, i, j, cs, rfl, hr.dot_le, hr.bounds.1, hr.bounds.2, hpred, hsp⟩
  · rintro ⟨r, d, i, j, cs, rfl, hd, hij, hj, hpred, hsp⟩
    refine ⟨r, d, i, j, cs, rfl, ?_⟩
    have h0 : Reached p w r 0 i i [] := by
      rcases hpred with ⟨rfl, rfl⟩ | ⟨hr, hp⟩
      · exact .start
      · exact reached_of_predictable (by omega) hp r hr rfl
    have h := hsp.reached (List.take_append_drop d r.rhs).symm h0
    rwa [List.length_take, Nat.min_eq_left hd] at h

end ParseChart.Earley
