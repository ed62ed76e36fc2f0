import QualityRules.Proofs.Language

/-!
# Proofs — FileLanguage

The language of files.  What is read as a file is derived in the grammar, apart from comments, and
what is derived is read where there are none.

* `Read.rulesetLoop_inside`, `Read.ruleset_derives` and `Read.rulesetsLoop_derives`: what is read
  between brackets, as a ruleset and as rulesets in a row; `Ruleset.TrailedBy` says which comments
  stand behind a ruleset.
* `Grammar.IsBody.gives`, `Grammar.IsRuleset.gives` and `Grammar.IsRulesets.gives` are the other
  direction.
* `Source.isFile_solid_of_file` and `Source.file_of_isFile`: both for whole texts.
-/

namespace QualityRules

open Read Grammar

variable {fuel n : Nat} {t right last : Token} {ts us : List Token} {r s m : Row} {k l : Tray}
  {d : RulesetDraft} {h : Header} {x : Ruleset} {xs before all : List Ruleset} {ds : List RuleDecl}
  {filename source : String} {options : Options} {f : RuleFile}
  {decl : List Token → RuleDecl → Prop}

/-- The tokens `vs` are the comments that trail the ruleset. -/
structure Ruleset.TrailedBy (x : Ruleset) (vs : List Token) : Prop where
  kind : ∀ t ∈ vs, t.kind = .comment
  comments : x.comments = CommentGroup.ofList? (vs.map Comment.ofToken)

/-- What trails a ruleset is comments. -/
theorem Ruleset.TrailedBy.solid_append (h : x.TrailedBy us) (ts : List Token) :
    solid (ts ++ us) = solid ts := by
  rw [QualityRules.solid_append, solid_eq_nil h.kind, List.append_nil]

namespace Read

/-! ### What is read is derived -/

/-- No ruleset goes on at a closing bracket or at the end of the text. -/
theorem RulesetStep.kind_ne {d' : RulesetDraft} (step : RulesetStep fuel d k (Row.cons t m) d' l s) :
    t.kind ≠ .rightBracket ∧ t.kind ≠ .eof := by
  generalize row : Row.cons t m = r at step
  cases step with
  | before kind _ | header kind _ _ | comment kind _ =>
    obtain ⟨rfl, -⟩ := Row.cons_inj.mp row
    simp [kind]
  | rule other _ _ =>
    obtain ⟨rfl, -⟩ := Row.cons_inj.mp row
    exact ⟨other.2.1, other.1⟩

/-- A ruleset ends at its closing bracket, behind which its comments stand. -/
theorem RulesetEnd.derives (stop : RulesetEnd fuel d r x s) (inside : d.header = some h) :
    ∃ right vs, r = Row.behind (right :: vs) s ∧ right.kind = .rightBracket ∧ x.TrailedBy vs ∧
      x.bare = ⟨h.declPos, h.leftBracket, right.start, d.rules.map RuleDecl.bare, [], none, none,
        none⟩ := by
  cases stop with
  | @bracket t m h' cs s kind inside' trail =>
    obtain rfl : h = h' := Option.some.inj (inside.symm.trans inside')
    obtain ⟨vs, rfl, block, rfl, -⟩ := trailing_gives trail
    exact ⟨t, vs, rfl, kind, ⟨block.kind_eq, rfl⟩, rfl⟩

/-- What is read between brackets is derived, up to the closing one. -/
theorem rulesetLoop_inside (g : (rulesetLoop fuel n d).Gives k r x l s) (final : r.Final)
    (inside : d.header = some h) :
    ∃ us right vs ds, r = Row.behind (us ++ right :: vs) s ∧ right.kind = .rightBracket ∧
      x.TrailedBy vs ∧ IsBody (IsDecl true) (solid us) ds ∧
      x.bare = ⟨h.declPos, h.leftBracket, right.start, d.rules.map RuleDecl.bare ++ ds, [], none,
        none, none⟩ := by
  -- on the fuel; a declaration that a bracket ends is the last one
  induction n generalizing d k r with
  | zero => exact absurd (ParseRules.gives_lift.mp g).2 not_gives_fail
  | succ n ih =>
    obtain ⟨d', k', m, step, rest⟩ | ⟨stop, rfl⟩ := rulesetLoop_gives.mp g
    · cases step with
      | before _ outside | header _ outside _ => exact nomatch inside.symm.trans outside
      | @comment t m h' kind _ =>
        obtain ⟨us, right, vs, ds, rfl, closes, trailed, body, bare⟩ := ih rest final.tail inside
        exact ⟨t :: us, right, vs, ds, rfl, closes, trailed, by rwa [solid_cons_comment kind], bare⟩
      | @rule t m₁ h' decl inner m other _ read =>
        obtain ⟨us, ms, row, account⟩ := rule_reads read final (K := none) rfl rfl
        obtain ⟨ts, stop, solid_us, ends, is⟩ := account.shape
        cases ends with
        | @text u q isEnd =>
          -- behind the end of the text there is no bracket
          obtain ⟨-, -, -, again⟩ := final.of_solid row solid_us isEnd
          cases n with
          | zero => exact absurd (ParseRules.gives_lift.mp rest).2 not_gives_fail
          | succ n =>
            rw [again] at rest
            obtain ⟨_, _, _, step, -⟩ | ⟨stop, -⟩ := rulesetLoop_gives.mp rest
            · exact absurd isEnd step.kind_ne.2
            · generalize same : Row.cons u m = r' at stop
              cases stop with
              | bracket kind _ _ =>
                obtain ⟨rfl, -⟩ := Row.cons_inj.mp same
                exact nomatch isEnd.symm.trans kind
        | @comma u q isComma _ =>
          obtain ⟨ws, right, vs, ds, rfl, closes, trailed, body, bare⟩ :=
            ih rest (final.rest row) inside
          refine ⟨us ++ ws, right, vs, decl.bare :: ds, ?_, closes, trailed, ?_, ?_⟩
          · rw [row, List.append_assoc, Row.behind_append us]
          · rw [solid_append, solid_us, List.append_assoc]
            exact .more is isComma body
          · simpa using bare
        | @bracket u q isBracket _ =>
          cases n with
          | zero => exact absurd (ParseRules.gives_lift.mp rest).2 not_gives_fail
          | succ n =>
            obtain ⟨_, _, _, step, -⟩ | ⟨stop, rfl⟩ := rulesetLoop_gives.mp rest
            · exact absurd isBracket step.kind_ne.1
            · obtain ⟨right, vs, rest, closes, trailed, bare⟩ := stop.derives inside
              refine ⟨us, right, vs, [decl.bare], ?_, closes, trailed, ?_, by simpa using bare⟩
              · rw [row, rest, Row.behind_append]
              · rw [solid_us, List.append_nil]
                exact .last is
    · obtain ⟨right, vs, row, closes, trailed, bare⟩ := stop.derives inside
      exact ⟨[], right, vs, [], row, closes, trailed, .nil, by simpa using bare⟩

/-- What is read as a ruleset is derived, apart from the comments before it as well; behind it come
those that trail it. -/
theorem rulesetLoop_derives (g : (rulesetLoop fuel n d).Gives k r x l s) (final : r.Final)
    (outside : d.header = none) (rules : d.rules = []) :
    ∃ us vs, r = Row.behind (us ++ vs) s ∧ IsRuleset (IsDecl true) (solid us) x.bare ∧
      x.TrailedBy vs := by
  induction n generalizing k r with
  | zero => exact absurd (ParseRules.gives_lift.mp g).2 not_gives_fail
  | succ n ih =>
    obtain ⟨d', k', m, step, rest⟩ | ⟨stop, rfl⟩ := rulesetLoop_gives.mp g
    · cases step with
      | @before t m kind _ =>
        obtain ⟨us, vs, rfl, is, trailed⟩ := ih rest final.tail
        exact ⟨t :: us, vs, rfl, by rwa [solid_cons_comment kind], trailed⟩
      | @header t m₁ h l m word _ read =>
        obtain ⟨sign, m₂, left, cs, rfl, equal, trail, opens, rfl, rfl⟩ := takeHeader_gives.mp read
        obtain ⟨m₃, rfl, ⟨isEnd, -⟩ | ⟨-, trail⟩⟩ := popTrailing_gives.mp trail
        · exact nomatch opens.symm.trans isEnd
        obtain ⟨us, rfl, block, -, -⟩ := trailing_gives trail
        have row : Row.cons t (Row.cons sign (Row.cons left (Row.behind us m)))
          = Row.behind (t :: sign :: left :: us) m := rfl
        obtain ⟨ws, right, vs, ds, rfl, closes, trailed, body, bare⟩ :=
          rulesetLoop_inside rest (final.rest row) rfl
        refine ⟨t :: sign :: left :: us ++ (ws ++ [right]), vs, ?_, ?_, trailed⟩
        · rw [row, ← Row.behind_append]
          simp
        · have solid_all : solid (t :: sign :: left :: us ++ (ws ++ [right]))
              = t :: sign :: left :: (solid ws ++ [right]) := by
            rw [solid_append, solid_cons (by simp [word]), solid_cons (by simp [equal]),
              solid_cons (by simp [opens]), solid_eq_nil block.kind_eq, solid_append,
              solid_cons (by simp [closes])]
            rfl
          rw [solid_all, bare, rules, List.map_nil, List.nil_append]
          exact .mk word equal opens body closes
      | comment _ inside | rule _ inside _ => exact nomatch outside.symm.trans inside
    · cases stop with
      | bracket _ inside _ => exact nomatch outside.symm.trans inside

/-- A ruleset is read from its tokens, and comments trail it. -/
theorem ruleset_derives (g : (ruleset fuel).Gives k r x l s) (final : r.Final) :
    ∃ us vs, r = Row.behind (us ++ vs) s ∧ IsRuleset (IsDecl true) (solid us) x.bare ∧
      x.TrailedBy vs := by
  obtain ⟨m, loop, rfl⟩ := ruleset_gives.mp g
  exact rulesetLoop_derives loop final rfl rfl

/-- Each of the rulesets in a row is read by itself, from some row on. -/
theorem rulesetsLoop_mem (g : (rulesetsLoop fuel n before).Gives k r all l s) (final : r.Final) :
    ∀ x ∈ all, x ∈ before ∨ ∃ us m k' l' s', r = Row.behind us m ∧
      (ruleset fuel).Gives k' m x l' s' := by
  induction n generalizing before k r with
  | zero => exact absurd (ParseRules.gives_lift.mp g).2 not_gives_fail
  | succ n ih =>
    obtain ⟨x, k', t, m, read, rest⟩ | ⟨-, rfl, -⟩ := rulesetsLoop_gives.mp g
    · have known : ∀ y ∈ before ++ [x], y ∈ before ∨ ∃ us m k' l' s', r = Row.behind us m ∧
          (ruleset fuel).Gives k' m y l' s' := by
        refine List.forall_mem_append.mpr ⟨fun y => .inl, List.forall_mem_singleton.mpr ?_⟩
        exact .inr ⟨[], r, k, k', _, rfl, read⟩
      rcases rest with ⟨-, rfl, -, -⟩ | ⟨-, rest⟩
      · exact known
      · obtain ⟨us, vs, row, -, -⟩ := ruleset_derives read final
        intro y mem
        obtain old | ⟨ws, m', k'', l', s', row', read'⟩ := ih rest (final.rest row) y mem
        · exact known y old
        · refine .inr ⟨us ++ vs ++ ws, m', k'', l', s', ?_, read'⟩
          rw [row, row', Row.behind_append (us ++ vs)]
    · exact fun x => .inl

/-- What is read as rulesets in a row is derived, up to the end of the text. -/
theorem rulesetsLoop_derives {left : Nat} (g : (rulesetsLoop fuel n before).Gives k r all l s)
    (remains : r.Remains ts left) :
    all ≠ [] ∧ ∃ us last xs, r = Row.behind (us ++ [last]) s ∧ last.kind = .eof ∧
      IsRulesets (IsDecl true) (solid us) xs ∧
      all.map Ruleset.bare = before.map Ruleset.bare ++ xs := by
  induction n generalizing before k r left with
  | zero => exact absurd (ParseRules.gives_lift.mp g).2 not_gives_fail
  | succ n ih =>
    obtain ⟨x, k', t, m, read, rest⟩ | ⟨some, rfl, none⟩ := rulesetsLoop_gives.mp g
    · obtain ⟨us', vs', row, is, trailed⟩ := ruleset_derives read remains.final
      rw [← trailed.solid_append] at is
      generalize us' ++ vs' = us at row is
      rcases rest with ⟨isEnd, rfl, rfl, rfl⟩ | ⟨-, rest⟩
      · refine ⟨by simp, us, t, [x.bare], by rw [row, Row.behind_append]; rfl, isEnd, ?_, by simp⟩
        simpa using IsRulesets.cons is .nil
      · obtain ⟨fewer, -, remains⟩ := (spends_ruleset remains (le_refl fuel)).holds read
        obtain ⟨some, vs, last, xs, row', isEnd, all_is, eq⟩ := ih rest remains
        refine ⟨some, us ++ vs, last, x.bare :: xs, ?_, isEnd, ?_, by simpa using eq⟩
        · rw [row, row', List.append_assoc, Row.behind_append us]
        · rw [solid_append]
          exact .cons is all_is
    · obtain ⟨us, t, ⟨rfl, comments, isEnd⟩, -⟩ := ruleset_fails remains none
      refine ⟨some, us, t, [], by rw [Row.behind_append]; rfl, isEnd, ?_, by simp⟩
      rw [solid_eq_nil comments]
      exact .nil

end Read

namespace Grammar

/-! ### What is derived is read -/

/-- A ruleset ends with its closing bracket. -/
theorem IsRuleset.lastKind_eq (h : IsRuleset decl ts x) (K : Option Kind) :
    lastKind K ts = some .rightBracket := by
  cases h with
  | mk _ _ _ _ closes =>
    simp only [← List.cons_append, lastKind_append]
    rw [lastKind_cons, kindBehind_of_kind (by simp [closes]), closes]
    rfl

/-- Behind rulesets the last kind is not the end of the text. -/
theorem IsRulesets.lastKind_ne (h : IsRulesets decl ts xs) {K : Option Kind}
    (start : K ≠ some .eof) : lastKind K ts ≠ some .eof := by
  induction h generalizing K with
  | nil => exact start
  | cons first _ ih =>
    rw [lastKind_append, first.lastKind_eq]
    exact ih nofun

/-- Declarations are read up to the bracket that closes the ruleset. -/
theorem IsBody.gives (is : IsBody (IsDecl true) ts ds) (hf : ts.length + 1 ≤ fuel)
    (hn : ts.length + 1 ≤ n) (inside : d.header = some h) (waits : d.inner = Tray.empty)
    (closes : right.kind = .rightBracket) (quiet : Quiet s) :
    (rulesetLoop fuel n d).Gives k (Row.behind ts (Row.cons right s))
      ⟨h.declPos, h.leftBracket, right.start, d.rules ++ ds, [], h.description,
        CommentGroup.ofList? h.comments, none⟩ k s := by
  have stop : ∀ {d : RulesetDraft}, d.header = some h → d.inner = Tray.empty →
      RulesetEnd fuel d (Row.cons right s) ⟨h.declPos, h.leftBracket, right.start, d.rules, [],
        h.description, CommentGroup.ofList? h.comments, none⟩ s := by
    intro d inside waits
    have trail : (trailing fuel right.start).Gives s [] s :=
      quiet.trailing (Nat.lt_of_lt_of_le (Nat.succ_pos _) hf)
    have ends := RulesetEnd.bracket closes inside trail
    rwa [waits] at ends
  have other : ∀ {t : Token}, t.kind = .ident ∨ t.kind = .leftParen →
      t.kind ≠ .eof ∧ t.kind ≠ .rightBracket ∧ t.kind ≠ .kwRules ∧ t.kind ≠ .comment := by
    rintro t (kind | kind) <;> simp [kind]
  -- on the rules of the body; a turn reads one of them with the comma behind it
  induction is generalizing d n with
  | nil =>
    obtain ⟨n, rfl⟩ : ∃ m, n = m + 1 := ⟨n - 1, by omega⟩
    refine rulesetLoop_gives.mpr (.inr ⟨?_, rfl⟩)
    simpa using stop inside waits
  | @last ts decl only =>
    obtain ⟨t, us, rfl, kind⟩ := only.first
    obtain ⟨n, rfl⟩ : ∃ m, n = m + 1 + 1 := ⟨n - 2, by simp at hn; omega⟩
    have read := only.gives (DeclEnd.bracket (q := s) closes rfl) hf
    rw [← waits] at read
    refine rulesetLoop_gives.mpr (.inl ⟨_, _, _, .rule (other kind) inside read, ?_⟩)
    exact rulesetLoop_gives.mpr (.inr ⟨stop inside waits, rfl⟩)
  | @more ts decl comma us ds first isComma others ih =>
    obtain ⟨t, vs, rfl, kind⟩ := first.first
    obtain ⟨n, rfl⟩ : ∃ m, n = m + 1 := ⟨n - 1, by omega⟩
    simp only [List.length_append, List.length_cons] at hf hn
    have size : (t :: vs).length + 1 ≤ fuel := by
      simp only [List.length_cons]
      omega
    have read := first.gives (DeclEnd.comma (q := Row.behind us (Row.cons right s)) isComma rfl)
      size
    rw [← waits] at read
    rw [Row.behind_append]
    refine rulesetLoop_gives.mpr (.inl ⟨_, _, _, .rule (other kind) inside read, ?_⟩)
    simpa using ih (d := { d with rules := d.rules ++ [decl] }) (n := n) (by omega) (by omega)
      inside waits

/-- A ruleset is read, with nothing on the tray. -/
theorem IsRuleset.gives (is : IsRuleset (IsDecl true) ts x) (hf : ts.length ≤ fuel)
    (quiet : Quiet s) :
    (ruleset fuel).Gives Tray.empty (Row.behind ts s) x Tray.empty s := by
  cases is with
  | @mk word sign left ts ds right kind equal opens body closes =>
    simp only [List.length_cons, List.length_append, List.length_nil] at hf
    obtain ⟨n, rfl⟩ : ∃ m, fuel = m + 1 := ⟨fuel - 1, by omega⟩
    have size : ts.length + 1 ≤ n := by omega
    have quiet_left : Quiet (Row.behind ts (Row.cons right s)) := by
      cases body with
      | nil => exact quiet_cons (by simp [closes]) _
      | last only =>
        obtain ⟨t, us, rfl, kind | kind⟩ := only.first <;> exact quiet_cons (by simp [kind]) _
      | more first _ _ =>
        obtain ⟨t, us, rfl, kind | kind⟩ := first.first <;> exact quiet_cons (by simp [kind]) _
    have header : (takeHeader (n + 1) word).Gives Tray.empty
        (Row.behind (sign :: left :: (ts ++ [right])) s) ⟨word.start, left.start, none, []⟩
        Tray.empty (Row.behind ts (Row.cons right s)) := by
      rw [Row.behind_cons, Row.behind_cons, Row.behind_append]
      exact takeHeader_gives.mpr ⟨sign, _, left, [], rfl, equal,
        quiet_left.popTrailing (Nat.succ_pos n) (by simp [opens]), opens, rfl, rfl⟩
    have rest := body.gives (k := Tray.empty)
      (d := { RulesetDraft.empty with header := some ⟨word.start, left.start, none, []⟩ })
      (Nat.le_succ_of_le size) size rfl rfl closes quiet
    exact ruleset_gives.mpr ⟨Tray.empty, rulesetLoop_gives.mpr
      (.inl ⟨_, _, _, .header kind rfl header, rest⟩), rfl⟩

/-- A ruleset starts with the word that opens it. -/
theorem IsRuleset.first (is : IsRuleset decl ts x) : ∃ t us, ts = t :: us ∧ t.kind = .kwRules := by
  cases is with
  | mk word _ _ _ _ => exact ⟨_, _, rfl, word⟩

/-- Rulesets in a row are read up to the end of the text. -/
theorem IsRulesets.gives (is : IsRulesets (IsDecl true) ts xs) (some : xs ≠ [])
    (hf : ts.length ≤ fuel) (hn : ts.length ≤ n) (ends : last.kind = .eof) :
    (rulesetsLoop fuel n before).Gives Tray.empty (Row.behind ts (Row.cons last s)) (before ++ xs)
      Tray.empty s := by
  induction is generalizing before n with
  | nil => exact absurd rfl some
  | @cons us x vs xs first others ih =>
    obtain ⟨word, ws, rfl, -⟩ := first.first
    simp only [List.length_append, List.length_cons] at hf hn
    obtain ⟨n, rfl⟩ : ∃ m, n = m + 1 := ⟨n - 1, by omega⟩
    rw [Row.behind_append]
    refine rulesetsLoop_gives.mpr (.inl ?_)
    cases others with
    | nil =>
      have quiet : Quiet (Row.cons last s) := quiet_cons (by simp [ends]) s
      exact ⟨x, Tray.empty, last, s, first.gives (by simpa using hf) quiet,
        .inl ⟨ends, rfl, rfl, rfl⟩⟩
    | @cons us y vs ys second others =>
      obtain ⟨word', ws', rfl, kind⟩ := second.first
      have quiet : Quiet (Row.behind (word' :: ws' ++ vs) (Row.cons last s)) :=
        quiet_cons (by simp [kind]) _
      have rest : (rulesetsLoop fuel n (before ++ [x])).Gives Tray.empty
          (Row.behind (word' :: ws' ++ vs) (Row.cons last s)) (before ++ [x] ++ y :: ys) Tray.empty
          s := ih (by simp) (by omega) (by omega)
      rw [List.append_assoc] at rest
      exact ⟨x, Tray.empty, word', _, first.gives (by simp; omega) quiet,
        .inr ⟨by simp [kind], rest⟩⟩

end Grammar

namespace Source

/-- What is read as a file is derived in the grammar, apart from comments. -/
theorem isFile_solid_of_file (h : (file filename source options).result = .ok f) :
    IsFile (IsDecl true) filename (solid (lex source)) f.bare := by
  rw [result_file] at h
  obtain ⟨k, s, g⟩ := session_eq_ok_iff.mp h
  obtain ⟨all, loop, rfl⟩ := file_gives.mp g
  obtain ⟨some, us, last, xs, row, isEnd, is, eq⟩ :=
    rulesetsLoop_derives loop (Row.Remains.of_lex source)
  obtain ⟨vs, last', tokens, others, terminal⟩ := lex_eq source
  rw [tokens, Row.ofTokens_eq others terminal] at row
  have going : lastKind none us ≠ Option.some .eof := by
    rw [← lastKind_solid]
    exact is.lastKind_ne nofun
  have whole := Row.eq_of_behind others terminal row isEnd (ne_eof_of_lastKind going)
  have bare : RuleFile.bare ⟨filename, k.floating, all⟩ = ⟨filename, [], xs⟩ := by
    simp [RuleFile.bare, eq]
  rw [tokens, whole, solid_append, solid_cons (by simp [isEnd]), bare]
  refine .mk is ?_ isEnd
  rintro rfl
  simp [some] at eq

/-- What is derived in the grammar is read as a file, as what it is derived as. -/
theorem file_of_isFile (h : IsFile (IsDecl true) filename (lex source) f) :
    (file filename source options).result = .ok f := by
  obtain ⟨ts, last, eq, others, terminal⟩ := lex_eq source
  generalize tokens : lex source = us at h
  cases h with
  | @mk ts' xs last' is some ends =>
    obtain ⟨rfl, same⟩ := List.append_inj' (tokens.symm.trans eq) rfl
    obtain rfl : last' = last := List.head_eq_of_cons_eq same
    have enough : ts'.length ≤ (lex source).length + 1 := by
      rw [eq, List.length_append]
      omega
    have read : (rulesetsLoop _ _ []).Gives Tray.empty
        (Row.behind ts' (Row.cons last' (Row.ending last'))) xs Tray.empty (Row.ending last') :=
      is.gives some enough enough ends
    rw [← Row.ending_eof ends, ← Row.ofTokens_eq others terminal, ← eq] at read
    rw [result_file]
    exact session_eq_ok_iff.mpr ⟨Tray.empty, _, file_gives.mpr ⟨xs, read, rfl⟩⟩

end Source

end QualityRules
