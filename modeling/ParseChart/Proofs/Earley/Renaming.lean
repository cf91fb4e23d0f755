import ParseChart.Proofs.Earley.Answers
import ParseChart.Proofs.Grammar.Renaming
/-!
# Renamed inputs

A parse that ends finds the derivation trees whatever the symbols are called, unless the symbol above the
start stands in a right side. So a grammar and an input under other names have the renamed answers.
-/

namespace ParseChart.Earley

open ChartM

variable {g : Grammar} {start : Option String} {p : Earley}

/-- Where the top symbol is in no right side, neither before nor after, new names for the symbols make a grammar that is
accepted too, and if the parses of an input and of the renamed one end, both are accepted or neither is, and the trees
of the one are the renamed trees of the other. -/
theorem renamed_answers {f : String → String} (hf : Function.Injective f) {rules : List Rule} {symbol : String}
    (hg : Grammar.ofRules rules symbol = .ok g) (hp : ofGrammar g start = .ok p)
    (htop : ∀ r ∈ rules, topSymbol ∉ r.rhs ∧ topSymbol ∉ r.rhs.map f) :
    ∃ g' p', Grammar.ofRules (rules.map (Rule.rename f)) (f symbol) = .ok g' ∧ ofGrammar g' (start.map f) = .ok p' ∧
      p'.start = f p.start ∧ ∀ w fuel fuel' s s', p.parse fuel w = (.ok (), s) → p'.parse fuel' (w.map f) = (.ok (), s') →
        (∃ accepted, (p.recognize fuel w).1 = .ok accepted ∧ (p'.recognize fuel' (w.map f)).1 = .ok accepted) ∧
        ∃ trees trees', (p.parseTrees fuel w).1 = .ok trees ∧ (p'.parseTrees fuel' (w.map f)).1 = .ok trees' ∧
          trees'.Perm (trees.map (Tree.rename f)) := by
  obtain ⟨hne, hcyc, rfl⟩ := ofGrammar_eq_ok.1 hp
  obtain ⟨g', hg', hstart, hrenames⟩ := Grammar.exists_renames f hg
  have hp' : ofGrammar g' (start.map f) = .ok ⟨g', f (start.getD g.start)⟩ := by
    refine ofGrammar_eq_ok.2 ⟨hrenames.hasEmptyRule hne, hrenames.hasUnitCycle hf hcyc, ?_⟩
    cases start <;> simp [hstart]
  have hrules := (Grammar.of_ofRules hg).2
  refine ⟨g', _, hg', hp', rfl, fun w fuel fuel' s s' hparse hparse' => ?_⟩
  obtain ⟨⟨trees, htrees, hn, hmem⟩, accepted, hacc, haccepted⟩ :=
    answers_of_parse hp (fun r hr => (htop r ((hrules r).1 hr)).1) hparse
  obtain ⟨⟨trees', htrees', hn', hmem'⟩, accepted', hacc', haccepted'⟩ :=
    answers_of_parse hp' (fun r hr => by
      obtain ⟨u, hu, rfl⟩ := (hrenames r).1 hr
      exact (htop u ((hrules u).1 hu)).2) hparse'
  constructor
  · have hsame : accepted = accepted' := by
      rw [Bool.eq_iff_iff, haccepted, haccepted']
      simp only [hrenames.parses_iff hf]
      constructor
      · rintro ⟨t, ht⟩
        exact ⟨_, t, ht, rfl⟩
      · rintro ⟨-, t, ht, -⟩
        exact ⟨t, ht⟩
    exact ⟨accepted, hacc, hsame ▸ hacc'⟩
  · exact ⟨trees, trees', htrees, htrees', hrenames.trees_perm hf hn hn' hmem hmem'⟩

/-! ## Other names -/

/-- Each name with a mark before it. -/
def marked (a : String) : String := "_" ++ a

theorem marked_injective : Function.Injective marked := fun _ _ h => (String.append_right_inj "_").1 h

theorem renamed_answers_marked :
    (Function.Injective marked ∧ Grammar.ofRules [⟨"S", ["S", "S"]⟩, ⟨"S", ["a"]⟩] "S" = .ok .doubling ∧
        ofGrammar .doubling none = .ok ⟨.doubling, "S"⟩) ∧
      ∃ (p' : Earley) (fuel fuel' : Nat) (s s' : Logged Item), parse ⟨.doubling, "S"⟩ fuel ["a", "a"] = (.ok (), s) ∧
        p'.parse fuel' ["_a", "_a"] = (.ok (), s') ∧ p'.start = "_S" ∧
        ∃ trees trees' : List Tree, (parseTrees ⟨.doubling, "S"⟩ fuel ["a", "a"]).1 = .ok trees ∧
          (p'.parseTrees fuel' ["_a", "_a"]).1 = .ok trees' ∧ trees'.Perm (trees.map (Tree.rename marked)) := by
  have hg : Grammar.ofRules [⟨"S", ["S", "S"]⟩, ⟨"S", ["a"]⟩] "S" = .ok .doubling := rfl
  refine ⟨⟨marked_injective, hg, ofGrammar_doubling⟩, ?_⟩
  obtain ⟨g', p', hg', hp', hstart, h⟩ := renamed_answers marked_injective hg ofGrammar_doubling (by decide)
  have htop : ∀ r ∈ g'.rules, topSymbol ∉ r.rhs := by
    simp only [(Grammar.of_ofRules hg').2]
    decide
  obtain ⟨hproper, -⟩ := proper_of_ofGrammar hp' htop (by rw [hstart]; decide)
  obtain ⟨fuel, s, hs⟩ := exists_parse_doubling ["a", "a"]
  obtain ⟨fuel', c, hc⟩ := hproper.exists_completes ["_a", "_a"]
  obtain ⟨s', hs', -⟩ := hc.parse (Nat.le_refl fuel')
  exact ⟨p', fuel, fuel', s, s', hs, hs', hstart, (h _ fuel fuel' s s' hs hs').2⟩

/-! ## The name of the symbol above the start -/

/-- The top symbol and `X` change places. -/
def swapTop (a : String) : String := if a = topSymbol then "X" else if a = "X" then topSymbol else a

theorem swapTop_injective : Function.Injective swapTop := by
  have htwice : Function.Involutive swapTop := fun a => by
    unfold swapTop
    split
    · simp [*]
    · split <;> simp [*]
  exact htwice.injective

/-- Rules with the top symbol on a right side. -/
def topRules : List Rule := [⟨"S", [topSymbol, "B"]⟩, ⟨"S", ["a"]⟩, ⟨"B", ["b"]⟩, ⟨topSymbol, ["c"]⟩]

def topGrammar : Grammar where
  groups := groupRules topRules
  start := "S"
  grouped := ⟨_, rfl⟩
  start_mem := by decide

def untopGrammar : Grammar where
  groups := groupRules (topRules.map (Rule.rename swapTop))
  start := "S"
  grouped := ⟨_, rfl⟩
  start_mem := by decide

theorem eq_ok_of_toOption {α : Type} {answer : Except Halt α} {a : α} (h : answer.toOption = some a) : answer = .ok a := by
  cases answer with
  | error halt => cases h
  | ok b => rw [Option.some.inj h]

/-- With the top symbol in a right side, the item over the first word completes the one above the start, which is taken
for the constituent that the rule waits for; under another name the rule waits in vain. -/
theorem swapTop_changes_answer :
    (Function.Injective swapTop ∧ Grammar.ofRules topRules "S" = .ok topGrammar ∧
        Grammar.ofRules (topRules.map (Rule.rename swapTop)) (swapTop "S") = .ok untopGrammar ∧
        ofGrammar topGrammar none = .ok ⟨topGrammar, "S"⟩ ∧ ofGrammar untopGrammar none = .ok ⟨untopGrammar, "S"⟩) ∧
      (recognize ⟨topGrammar, "S"⟩ 12 ["a", "b"]).1 = .ok true ∧
        (recognize ⟨untopGrammar, "S"⟩ 12 (["a", "b"].map swapTop)).1 = .ok false := by
  have hcycle : topGrammar.hasUnitCycle = false := Grammar.hasUnitCycle_eq_false (by decide)
  have hcycle' : untopGrammar.hasUnitCycle = false := Grammar.hasUnitCycle_eq_false (by decide)
  have htrue : (recognize ⟨topGrammar, "S"⟩ 12 ["a", "b"]).1.toOption = some true := by decide +kernel
  have hfalse : (recognize ⟨untopGrammar, "S"⟩ 12 (["a", "b"].map swapTop)).1.toOption = some false := by decide +kernel
  exact ⟨⟨swapTop_injective, rfl, rfl, ofGrammar_eq_ok.2 ⟨by decide, hcycle, rfl⟩,
    ofGrammar_eq_ok.2 ⟨by decide, hcycle', rfl⟩⟩, eq_ok_of_toOption htrue, eq_ok_of_toOption hfalse⟩

end ParseChart.Earley
