import ParseChart.CommandLine
import ParseChart.Proofs.Agreement
import ParseChart.Proofs.Earley.Answers
import ParseChart.Tree.Layout
/-!
# The level of the log

The level decides whether records are shown, and they go to the error stream: the status and what is printed are
the same under every level, however trees are laid out. The two names of things that are no level are the
exception, as they end the command before the parse.
-/

namespace ParseChart.CommandLine

open ChartM

variable {layout : Int → Tree → String} {o : Options} {fuel : Nat} {c : Chart Item} {r : Report} {level : String}

/-- The words to parse. -/
def Options.words (o : Options) : List String := if o.tokens.isEmpty then sentence else o.tokens

/-- The parse that the options ask for ends on this much fuel, which only the one parser needs. -/
def ParseEnds (fuel : Nat) (o : Options) : Prop :=
  match o.algorithm with
  | .earley => o.start ≠ .empty ∧
      ∃ p s, Earley.ofGrammar .english o.start.symbol? = .ok p ∧ p.parse fuel o.words = (.ok (), s)
  | .cyk => ∃ p s, Cyk.ofGrammar .english o.start.symbol? = .ok p ∧ p.parse o.words = (.ok (), s)

/-! ## Levels -/

theorem showsRecords_layout (h : capitals level = "BASIC_FORMAT") : showsRecords (some level) = .error .layout := by
  simp [showsRecords, h]

theorem showsRecords_layouts (h : capitals level = "_STYLES") : showsRecords (some level) = .error .layouts := by
  simp [showsRecords, h]

theorem exists_showsRecords (h : capitals level ≠ "BASIC_FORMAT") (h' : capitals level ≠ "_STYLES") :
    ∃ shown, showsRecords (some level) = .ok shown := by
  simp [showsRecords, h, h']

/-! ## Reports -/

theorem isNormalForm_english : Grammar.english.isNormalForm = true := by decide +kernel

theorem english_topFree : ∀ r ∈ Grammar.english.rules, Earley.topSymbol ∉ r.rhs := by decide +kernel

theorem yields_report {fill : ChartM Item Unit} {d : Chart Item} {symbol : String} {kind : Kind} {items : List Item}
    {trees : List Tree} (hfill : Yields fill d () c) (hitems : c.fullParseItems symbol = .ok items)
    (htrees : c.parseTrees symbol kind = .ok trees) :
    Yields (report kind symbol fill) d ⟨!items.isEmpty, c.itemCount, trees⟩ c :=
  hfill.bind ((yields_fullParseItems hitems).bind ((yields_chart c).bind
    ((yields_parseTrees htrees).bind (yields_pure _ c))))

/-- A parse that ends has a report, on whatever fuel it ends. -/
theorem ParseEnds.exists_report (h : ParseEnds fuel o) : ∃ r c, ∀ more, fuel ≤ more →
    ∃ work, reportFor more o.algorithm o.start.symbol? o.words = .ok work ∧ Yields work (.empty o.words.length) r c := by
  unfold ParseEnds at h
  cases hk : o.algorithm with
  | earley =>
    rw [hk] at h
    obtain ⟨-, p, s, hp, hs⟩ := h
    have hne : p.grammar.hasEmptyRule = false := by
      obtain ⟨hne, -, rfl⟩ := Earley.ofGrammar_eq_ok.1 hp
      exact hne
    obtain ⟨n, hn, hc⟩ := Earley.completes_of_parse hne hs
    obtain ⟨⟨trees, htrees, -⟩, items, hitems, -⟩ := hc.answers hp english_topFree
    refine ⟨⟨!items.isEmpty, s.chart.itemCount, trees⟩, s.chart, fun more hmore => ?_⟩
    refine ⟨report .earley p.start (p.fill more o.words), ?_, yields_report (hc.fill (hn.trans hmore)) hitems htrees⟩
    rw [reportFor, hp]
    rfl
  | cyk =>
    rw [hk] at h
    obtain ⟨p, -, hp, -⟩ := h
    have hg : p.grammar.isNormalForm = true := by
      obtain ⟨hg, rfl⟩ := Cyk.ofGrammar_eq_ok.1 hp
      exact hg
    obtain ⟨c, hc, hfilled⟩ := Cyk.fill_yields p o.words
    obtain ⟨⟨trees, htrees, -⟩, items, hitems, -⟩ := hfilled.answers hg p.start
    refine ⟨⟨!items.isEmpty, c.itemCount, trees⟩, c, fun more _ => ?_⟩
    refine ⟨report .cyk p.start (p.fill o.words), ?_, yields_report hc hitems htrees⟩
    rw [reportFor, hp]
    rfl

/-- The reply to a report, where records are shown or not. -/
theorem answer_of_report {shown : Bool} {work : ChartM Item Report} (hshown : showsRecords o.logLevel = .ok shown)
    (hstart : ¬ (o.start = .empty ∧ o.algorithm = .earley))
    (hwork : reportFor fuel o.algorithm o.start.symbol? o.words = .ok work)
    (hr : Yields work (.empty o.words.length) r c) :
    ∃ err, answer layout fuel o = .ok ⟨if r.accepted then 0 else 1, unlines (r.lines layout o.words), err⟩ := by
  obtain ⟨s, hs, -⟩ := hr.onEmpty Chart.logName
  unfold Options.words at *
  simp only [answer, hshown, Except.mapError, if_neg hstart, hwork, hs, bind, Except.bind, pure, Except.pure]
  exact ⟨_, rfl⟩

theorem ParseEnds.start (h : ParseEnds fuel o) : ¬ (o.start = .empty ∧ o.algorithm = .earley) := by
  rintro ⟨hstart, hk⟩
  unfold ParseEnds at h
  rw [hk] at h
  exact h.1 hstart

theorem answer_of_level_error {error : LevelError} (h : showsRecords o.logLevel = .error error) (fuel : Nat) :
    answer layout fuel o = .error ⟨.level error, ""⟩ := by
  simp only [answer, h, Except.mapError, bind, Except.bind]

/-- A tabular parse ends, and an Earley parse unless the start symbol is empty or the one above it. -/
theorem exists_parseEnds (h : o.algorithm = .earley → o.start ≠ .empty ∧ o.start ≠ .symbol Earley.topSymbol) :
    ∃ fuel, ParseEnds fuel o := by
  unfold ParseEnds
  cases hk : o.algorithm with
  | earley =>
    obtain ⟨hempty, htop⟩ := h hk
    obtain ⟨p, hp, -, hstart, hproper⟩ := exists_earley isNormalForm_english english_topFree o.start.symbol?
    have hne : p.start ≠ Earley.topSymbol := by
      rw [hstart]
      cases ho : o.start with
      | ofGrammar => decide
      | symbol name =>
        rintro rfl
        exact htop ho
      | empty => exact absurd ho hempty
    obtain ⟨n, c, hc⟩ := (hproper hne).exists_completes o.words
    obtain ⟨s, hs, -⟩ := hc.parse (Nat.le_refl n)
    exact ⟨n, hempty, p, s, hp, hs⟩
  | cyk =>
    obtain ⟨s, hs, -⟩ := Cyk.parse_filled ⟨.english, o.start.symbol?.getD Grammar.english.start⟩ o.words
    exact ⟨0, _, s, Cyk.ofGrammar_eq_ok.2 ⟨isNormalForm_english, rfl⟩, hs⟩

/-! ## Runs of the command -/

/-- With any layout of the trees: if the parse ends, the command has one status and prints one thing whatever the level is,
unless the level has one of two names of things that are none, under which it ends with a fault. -/
theorem run_ignores_level (layout : Int → Tree → String) (h : ParseEnds fuel o) : ∃ status out, ∀ more args level,
    fuel ≤ more → readOptions args = .ok { o with logLevel := some level } →
      (capitals level ≠ "BASIC_FORMAT" → capitals level ≠ "_STYLES" →
        ∃ err, run layout more args = .ok ⟨status, out, err⟩) ∧
      (capitals level = "BASIC_FORMAT" → run layout more args = .error ⟨.level .layout, ""⟩) ∧
      (capitals level = "_STYLES" → run layout more args = .error ⟨.level .layouts, ""⟩) := by
  obtain ⟨r, c, hreport⟩ := h.exists_report
  refine ⟨if r.accepted then 0 else 1, unlines (r.lines layout o.words), fun more args level hmore hargs => ?_⟩
  have hrun : run layout more args = answer layout more { o with logLevel := some level } := by
    rw [run, hargs]
  rw [hrun]
  refine ⟨fun hlayout hlayouts => ?_, fun hlayout => ?_, fun hlayouts => ?_⟩
  · obtain ⟨work, hwork, hr⟩ := hreport more hmore
    obtain ⟨shown, hshown⟩ := exists_showsRecords hlayout hlayouts
    exact answer_of_report (o := { o with logLevel := some level }) hshown h.start hwork hr
  · exact answer_of_level_error (showsRecords_layout hlayout) more
  · exact answer_of_level_error (showsRecords_layouts hlayouts) more

/-- The options of a command without arguments. -/
def defaults : Options := ⟨.earley, .ofGrammar, some "WARNING", []⟩

theorem run_ignores_level_defaults :
    ∃ fuel, (ParseEnds fuel defaults ∧ readOptions ["--log-level", "WARNING"] = .ok defaults ∧
        readOptions ["--log-level", "debug"] = .ok { defaults with logLevel := some "debug" }) ∧
      ∃ status out err err', run Tree.bracketed fuel ["--log-level", "WARNING"] = .ok ⟨status, out, err⟩ ∧
        run Tree.bracketed fuel ["--log-level", "debug"] = .ok ⟨status, out, err'⟩ := by
  obtain ⟨fuel, hends⟩ := exists_parseEnds (o := defaults) fun _ => by decide
  obtain ⟨status, out, hall⟩ := run_ignores_level Tree.bracketed hends
  obtain ⟨err, hwarning⟩ := (hall fuel ["--log-level", "WARNING"] "WARNING" (Nat.le_refl fuel) rfl).1
    (by decide +kernel) (by decide +kernel)
  obtain ⟨err', hdebug⟩ := (hall fuel ["--log-level", "debug"] "debug" (Nat.le_refl fuel) rfl).1
    (by decide +kernel) (by decide +kernel)
  exact ⟨fuel, ⟨hends, rfl, rfl⟩, status, out, err, err', hwarning, hdebug⟩

/-- The parse of the default sentence ends, but not the command under the name of a layout of records. -/
theorem run_faults_at_layout :
    ∃ fuel, ParseEnds fuel defaults ∧ (∃ reply, run Tree.bracketed fuel ["--log-level", "WARNING"] = .ok reply) ∧
      readOptions ["--log-level", "BASIC_FORMAT"] = .ok { defaults with logLevel := some "BASIC_FORMAT" } ∧
      run Tree.bracketed fuel ["--log-level", "BASIC_FORMAT"] = .error ⟨.level .layout, ""⟩ := by
  obtain ⟨fuel, hends⟩ := exists_parseEnds (o := defaults) fun _ => by decide
  obtain ⟨r, c, hreport⟩ := hends.exists_report
  obtain ⟨work, hwork, hr⟩ := hreport fuel (Nat.le_refl fuel)
  obtain ⟨shown, hshown⟩ : ∃ shown, showsRecords defaults.logLevel = .ok shown :=
    exists_showsRecords (by decide +kernel) (by decide +kernel)
  obtain ⟨err, hanswer⟩ := answer_of_report hshown hends.start hwork hr
  exact ⟨fuel, hends, ⟨_, hanswer⟩, rfl, answer_of_level_error (showsRecords_layout (by decide +kernel)) fuel⟩

end ParseChart.CommandLine
