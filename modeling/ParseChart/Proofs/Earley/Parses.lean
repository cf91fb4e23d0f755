import ParseChart.Proofs.Chart.Parses
import ParseChart.Proofs.Earley.Contents
/-!
# What an Earley parser finds

The complete items over the whole input for the start symbol are those of the derivation trees, so the
parser answers these, each once, and accepts the input if there is one. This holds for left-recursive and
ambiguous grammars, and for a start symbol without rules.
-/

namespace ParseChart.Earley

open ChartM

variable {g : Grammar} {start : Option String} {p : Earley} {w : List String}
  {r : Rule} {d i j : Nat} {cs : List Item}

theorem isParse_dotted {symbol : String} :
    Item.isParse symbol .earley (dotted r d i j cs) = true ↔ r.lhs = symbol ∧ r.rhs.length ≤ d := by
  simp [Item.isParse, Item.isOf, dotted, Item.kind?, Item.derives, Item.rule?, Item.isComplete?]

theorem Charted.plain {predicted : Nat → String → Prop} {x : Item} (h : Charted p w predicted x) :
    x.plain = true ∧ x.kind? = some .earley := by
  obtain ⟨r, d, i, j, cs, rfl, -, -, -, -, hsp⟩ := h
  obtain ⟨ts, -, -, -, rfl⟩ := hsp.trees
  exact ⟨by rw [plain_dotted, Tree.plainAll_itemAll], rfl⟩

/-- A complete item of a rule is that of a derivation tree. -/
theorem exists_tree_of_spells (hr : r ∈ g.rules) (hsp : Spells g w r.rhs i j cs) :
    ∃ t, g.Parses r.lhs (slice w i j) t ∧ dotted r r.rhs.length i j cs = t.item .earley i := by
  obtain ⟨hij, hj⟩ := hsp.bounds
  obtain ⟨ts, hroots, hobeys, hleaves, rfl⟩ := hsp.trees
  have hlen : i + (Tree.leavesAll ts).length = j := by
    rw [hleaves, length_slice hj]
    omega
  refine ⟨.node r.lhs ts, Grammar.parses_node.2 ⟨rfl, ?_, hobeys, hleaves⟩, ?_⟩
  · rw [hroots]
    exact hr
  · simp [Tree.item, Kind.constituent, dotted, hroots, hlen]

/-- The rules of the start symbol are predictable at the first word, so the item of each derivation tree is charted. -/
theorem charted_of_parses {t : Tree} (ht : p.grammar.Parses p.start w t) :
    Charted p w (Predictable p w) (t.item .earley 0) := by
  obtain ⟨ts, rfl⟩ := ht.root
  obtain ⟨-, hr, hobeys, hleaves⟩ := Grammar.parses_node.1 ht
  have hsp := spells_of_trees ts hobeys (hleaves.trans (slice_all w).symm) (Nat.zero_le _) (Nat.le_refl _)
  have hlen : 0 + (Tree.leavesAll ts).length = w.length := by rw [hleaves, Nat.zero_add]
  have hpred : Predictable p w 0 p.start := ⟨by simp, [], .refl _⟩
  refine ⟨⟨p.start, ts.map Tree.root⟩, _, 0, _, _, rfl, Nat.le_refl _, Nat.zero_le _, ?_, .inr ⟨hr, hpred⟩, ?_⟩
  · rw [hlen]
  · rw [hlen, List.take_length]
    exact hsp

/-- The parses on the finished chart are the items of the derivation trees. -/
theorem Proper.mem_parses (h : p.Proper) {c : Chart Item} (hf : c.Filed) (hl : c.length = w.length)
    (hm : ∀ x, x ∈ c ↔ Charted p w (Predictable p w) x) (x : Item) :
    x ∈ c.parses p.start .earley ↔ ∃ t, p.grammar.Parses p.start w t ∧ x = t.item .earley 0 := by
  unfold Chart.parses
  rw [hl, List.mem_filter]
  constructor
  · rintro ⟨hx, hparse⟩
    obtain ⟨r, d, i, j, cs, rfl, hd, -, -, hr, hsp⟩ := (hm x).1 (hf.mem_of_cell hx)
    obtain ⟨-, rfl, rfl⟩ := (over_dotted.mem_cell hf 0 _).1 hx
    obtain ⟨hlhs, hcomplete⟩ := isParse_dotted.1 hparse
    obtain rfl : d = r.rhs.length := by omega
    rw [List.take_length] at hsp
    rcases hr with ⟨rfl, -⟩ | ⟨hr, -⟩
    · exact absurd hlhs.symm h.start_ne
    · obtain ⟨t, ht, he⟩ := exists_tree_of_spells hr hsp
      rw [slice_all, hlhs] at ht
      exact ⟨t, ht, he⟩
  · rintro ⟨t, ht, rfl⟩
    have hover := ht.item_over .earley 0
    rw [Nat.zero_add] at hover
    refine ⟨(hover.mem_cell hf 0 _).2 ⟨(hm _).2 (charted_of_parses ht), rfl, rfl⟩, ?_⟩
    obtain ⟨ts, rfl⟩ := ht.root
    exact isParse_dotted.2 ⟨rfl, Nat.le_refl _⟩

/-- The trees of a finished chart and its answer to whether the input is accepted. -/
theorem Proper.answers (h : p.Proper) (w : List String) :
    (∃ trees, Answers (fun fuel => p.parseTrees fuel w) trees ∧ trees.Nodup ∧
        ∀ t, t ∈ trees ↔ p.grammar.Parses p.start w t) ∧
      ∃ accepted, Answers (fun fuel => p.recognize fuel w) accepted ∧
        (accepted = true ↔ ∃ t, p.grammar.Parses p.start w t) := by
  obtain ⟨c, hends, hf, hl, hm⟩ := h.fill w
  have hplain : c.Plain := fun x hx => ((hm x).1 hx).plain.1
  have hkind : ∀ x ∈ c, x.kind? = some .earley := fun x hx => ((hm x).1 hx).plain.2
  obtain ⟨⟨trees, htrees, hn, hmem⟩, items, hitems, haccepted⟩ :=
    hf.answers_of_parses hplain hkind (h.mem_parses hf hl hm)
  constructor
  · exact ⟨trees, (hends.bind (yields_parseTrees htrees).ends).answers _, hn, hmem⟩
  · exact ⟨_, (hends.bind (yields_accepted hitems).ends).answers _, haccepted⟩

/-- The parser of a grammar that it accepts answers the derivation trees of the input from the start symbol, each
once, and accepts the input iff there is one. -/
theorem answers_derivations (hp : ofGrammar g start = .ok p) (htop : ∀ r ∈ g.rules, topSymbol ∉ r.rhs)
    (hstart : p.start ≠ topSymbol) (w : List String) :
    (∃ trees, Answers (fun fuel => p.parseTrees fuel w) trees ∧ trees.Nodup ∧ ∀ t, t ∈ trees ↔ g.Parses p.start w t) ∧
      ∃ accepted, Answers (fun fuel => p.recognize fuel w) accepted ∧
        (accepted = true ↔ ∃ t, g.Parses p.start w t) := by
  obtain ⟨h, rfl⟩ := proper_of_ofGrammar hp htop hstart
  exact h.answers w

theorem answers_derivations_doubling :
    (ofGrammar .doubling none = .ok ⟨.doubling, "S"⟩ ∧ (∀ r ∈ Grammar.doubling.rules, topSymbol ∉ r.rhs) ∧
        "S" ≠ topSymbol) ∧
      (∃ trees, Answers (fun fuel => parseTrees ⟨.doubling, "S"⟩ fuel ["a", "a", "a"]) trees ∧ trees.Nodup ∧
        ∀ t, t ∈ trees ↔ Grammar.doubling.Parses "S" ["a", "a", "a"] t) ∧
      ∃ accepted, Answers (fun fuel => recognize ⟨.doubling, "S"⟩ fuel ["a", "a", "a"]) accepted ∧
        (accepted = true ↔ ∃ t, Grammar.doubling.Parses "S" ["a", "a", "a"] t) :=
  ⟨⟨ofGrammar_doubling, by decide, by decide⟩,
    answers_derivations ofGrammar_doubling (by decide) (by decide) ["a", "a", "a"]⟩

end ParseChart.Earley
