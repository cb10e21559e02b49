import Boogie.Proofs.Reread.Groups

/-! Printed commands and blocks are read back, given that the expressions in them are. -/
namespace Boogie.Grammar

open Token (Kind Word Spelling)
open Layout (Piece wordsOf commaList textWords Terminals printable isWritten nameWord nameWords)

def indexWords : Target → List Word
  | .name _ => []
  | .element _ map indexes =>
    indexWords map ++ Word.of .leftBracket :: (wordsOf (commaList (indexes.map Layout.expr)) ++ [Word.of .rightBracket])

def indexed (span : Span) (map : Target) : Production Target := do
  let indexes ← optionalExprs expression
  expect .rightBracket
  return .element (← spanFrom span) map indexes

theorem targetOfIndexed (id : Ident) :
    target expression id = whileHolds (eat .leftBracket) (indexed id.span) (.name id) := rfl

structure IsTargetReread (t : Target) : Prop where
  written : isWritten t.root.name
  words : wordsOf (Layout.target t) = nameWord t.root.name :: indexWords t
  brackets : ∀ {ws rest W span}, (∀ a, Alike t a → Reads ws rest W (whileHolds (eat .leftBracket) (indexed span) a)) →
    Reads (indexWords t ++ ws) rest W (whileHolds (eat .leftBracket) (indexed span) (.name ⟨t.root.name, span⟩))

theorem rereadName {id : Ident} (written : isWritten id.name) : IsTargetReread (.name id) where
  written := written
  words := nameWords written
  brackets next := next _ rfl

theorem rereadElement {span : Span} {map : Target} {indexes : List Expr} (ofMap : IsTargetReread map)
    (ofIndexes : ∀ e ∈ indexes, IsReread e) : IsTargetReread (.element span map indexes) where
  written := ofMap.written
  words := by
    simp [Layout.target, Layout.exprsMap, ofMap.words, indexWords, Target.root, textWords, Terminals.row, Spelling.kinds]
  brackets := by
    intro ws rest W place next
    rw [indexWords, List.append_assoc]
    refine ofMap.brackets fun a same => ?_
    rw [List.cons_append]
    refine .whileEatsRound (V := Alike (.element span map indexes)) (by decide) rfl ?_ next
    have ends : endsExpr .rightBracket := by decide
    refine .bind (readsOptionalExprs ofIndexes ends (by decide : Kind.rightBracket ≠ .comma)
      (by decide : exprStart.contains .rightBracket = false)) fun es sameEs => ?_
    refine .expectLast rfl (.spanFrom fun _ => .pure ?_)
    simp_all [Alike, bare]

section Targets

variable {t : Target} {rest : List Word}

theorem readsTarget (h : IsTargetReread t) (stops : headKind rest ≠ .leftBracket) (span : Span) :
    Reads (indexWords t) rest (Alike t) (target expression ⟨t.root.name, span⟩) := by
  rw [targetOfIndexed, ← List.append_nil (indexWords t)]
  exact h.brackets fun a same => .whileEatsDone stops same

theorem readsNextTarget (h : IsTargetReread t) (stops : headKind rest ≠ .leftBracket) :
    Reads (wordsOf (Layout.target t)) rest (Alike t) (ident >>= target expression) := by
  rw [h.words]
  exact readsNamed h.written fun span => readsTarget h stops span

theorem indexStarts (t : Target) (rest : List Word) :
    headKind (indexWords t ++ rest) = .leftBracket ∨ headKind (indexWords t ++ rest) = headKind rest := by
  cases t with
  | name id => exact .inr rfl
  | element span map indexes =>
    rw [indexWords, List.append_assoc]
    rcases indexStarts map _ with same | same
    · exact .inl same
    · exact .inl (same.trans rfl)

end Targets

section Calls

variable {ins : List Expr} {rest : List Word}

theorem readsCallArguments (each : ∀ e ∈ ins, IsReread e) :
    Reads (wordsOf (commaList (ins.map Layout.expr)) ++ [Word.of .rightParen]) rest (Alike ins)
      (callArguments expression) := by
  have ends : endsExpr .rightParen := by decide
  refine .bind (readsOptionalExprs each ends (by decide : Kind.rightParen ≠ .comma)
    (by decide : exprStart.contains .rightParen = false)) fun es same => ?_
  exact .expectLast rfl (.pure same)

structure IsCallReread (x : Call) : Prop where
  ofAs : ∀ a ∈ x.attributes, IsAttributeReread a
  opens : ∃ w more, wordsOf (Layout.callParams x) = w :: more ∧ w.kind = .identifier
  params : ∀ {found}, Alike x.attributes found → ∀ start rest, Reads (wordsOf (Layout.callParams x)) rest (Alike x)
    (callParams expression x.isAsync x.isFree found start)

theorem IsCallReread.noBrace {x : Call} (h : IsCallReread x) (rest : List Word) :
    headKind (wordsOf (Layout.callParams x) ++ rest) ≠ .leftBrace := by
  obtain ⟨w, more, opens, name⟩ := h.opens
  rw [opens]
  exact fun brace => absurd (name.symm.trans brace) (by decide)

theorem wordsNames (id : Ident) (written : isWritten id.name) (ids : List Ident) : wordsOf (Layout.names (id :: ids)) =
    nameWord id.name :: ids.flatMap fun id => Word.of .comma :: wordsOf (Layout.name id.name) := by
  rw [Layout.names, wordsComma, nameWords written]
  rfl

theorem rereadCall {isAsync isFree : Bool} {callee : Ident} {outs : List Ident} {as : List Attribute} {span : Span}
    (named : isWritten callee.name) (ofIns : ∀ e ∈ ins, IsReread e) (ofOuts : ∀ id ∈ outs, isWritten id.name)
    (ofAs : ∀ a ∈ as, IsAttributeReread a) : IsCallReread ⟨isAsync, isFree, callee, ins, outs, as, span⟩ := by
  have made {found : List Attribute} (alike : Alike as found) {callee' : Ident} (ofCallee : Alike callee callee')
      {ins' : List Expr} (sameIns : Alike ins ins') {outs' : List Ident} (sameOuts : Alike outs outs') (span' : Span) :
      Alike (⟨isAsync, isFree, callee, ins, outs, as, span⟩ : Call)
        ⟨isAsync, isFree, callee', ins', outs', found, span'⟩ := by
    simp_all [Alike, bare]
  cases outs with
  | nil =>
    have words : wordsOf (Layout.callParams ⟨isAsync, isFree, callee, ins, [], as, span⟩) = nameWord callee.name ::
        Word.of .leftParen :: (wordsOf (commaList (ins.map Layout.expr)) ++ [Word.of .rightParen]) := by
      simp [Layout.callParams, Layout.exprsMap, nameWords named, wordsWrapped]
    refine ⟨ofAs, ⟨_, _, words, rfl⟩, fun alike start rest => ?_⟩
    rw [words]
    refine readsNamed named fun place => .eatYes rfl (.last (readsCallArguments ofIns) fun ins' same => ?_)
    exact .spanFrom fun span' => .pure (made alike rfl same .nil span')
  | cons out outs =>
    obtain ⟨ofOut, others⟩ := List.forall_mem_cons.mp ofOuts
    have words : wordsOf (Layout.callParams ⟨isAsync, isFree, callee, ins, out :: outs, as, span⟩) =
        nameWord out.name :: ((outs.flatMap fun id => Word.of .comma :: wordsOf (Layout.name id.name)) ++
          Word.of .assign :: nameWord callee.name :: Word.of .leftParen ::
            (wordsOf (commaList (ins.map Layout.expr)) ++ [Word.of .rightParen])) := by
      simp [Layout.callParams, Layout.exprsMap, wordsNames out ofOut, nameWords named, wordsWrapped, textWords,
        Terminals.row, Spelling.kinds]
    refine ⟨ofAs, ⟨_, _, words, rfl⟩, fun alike start rest => ?_⟩
    have further (id : Ident) (mem : id ∈ outs) :
        ReadsBack (fun id : Ident => wordsOf (Layout.name id.name)) (fun _ => True) Alike ident id :=
      fun rest _ => readsIdent (others id mem) rest
    have marked (behind : List Word) := markedStarts .comma .assign (fun id : Ident => wordsOf (Layout.name id.name)) outs
      (Word.of .assign :: behind) rfl
    rw [words]
    refine readsNamed ofOut fun place => .eatNo ?_ (.ifYes ?_ ?_)
    · rw [List.append_assoc]
      rcases marked _ with same | same <;> exact fun paren => absurd (same.symm.trans paren) (by decide)
    · rw [List.append_assoc]
      rcases marked _ with same | same <;> exact (congrArg _ same).trans (by decide)
    · refine .bind (readsMarked (by decide) further trivial (by decide : Kind.assign ≠ .comma) trivial)
        fun outs' sameOuts => .expect rfl (readsNamed named fun _ => .expect rfl ?_)
      refine .last (readsCallArguments ofIns) fun ins' sameIns => .spanFrom fun span' => .pure ?_
      exact made alike rfl sameIns (.cons rfl (alikeOfForall sameOuts)) span'

end Calls

structure IsCmdReread (x : Cmd) : Prop where
  opens : ∃ w more, wordsOf (Layout.cmd x) = w :: more ∧ commandStart.contains w.kind = true
  reads : ∀ rest, Reads (wordsOf (Layout.cmd x)) rest (fun found => Alike (LabelOrCmd.cmd x) found) (labelOrCmd expression)

theorem rereadWord {x : Cmd} {w : Word} {more : List Word} (words : wordsOf (Layout.cmd x) = w :: more)
    (starts : commandStart.contains w.kind = true) (other : (w.kind == .identifier) = false)
    (reads : ∀ rest, Reads (w :: more) rest (fun found => Alike (LabelOrCmd.cmd x) found) (wordCmd expression)) :
    IsCmdReread x where
  opens := ⟨w, more, words, starts⟩
  reads rest := by
    rw [words]
    exact .ifNo other (reads rest)

section Commands

variable {span : Span} {as : List Attribute} {e : Expr}

theorem readsConditionCmd {make : Span → List Attribute → Expr → Cmd}
    (natural : ∀ f span as e, respan f (make span as e) = make (f span) (respan f as) (respan f e))
    (ofAs : ∀ a ∈ as, IsAttributeReread a) (ofE : IsReread e) (w : Word) (rest : List Word) :
    Reads (w :: (wordsOf (Layout.attributes as) ++ (wordsOf (Layout.expr e) ++ [Word.of .semicolon]))) rest
      (fun found => Alike (LabelOrCmd.cmd (make span as e)) found) (conditionCmd expression make) := by
  have noBrace : headKind (wordsOf (Layout.expr e) ++ [Word.of .semicolon] ++ rest) ≠ .leftBrace := by
    rw [List.append_assoc]
    exact exprNotHead ofE (by decide) _
  refine .advance fun t _ => .bind (readsAttributes ofAs noBrace) fun found same => ?_
  refine .bind (readsExpr ofE (by decide : endsExpr .semicolon)) fun e' sameE => ?_
  refine .expectLast rfl (.spanFrom fun span' => .pure ?_)
  simp_all [Alike, bare]

theorem rereadAssert (ofAs : ∀ a ∈ as, IsAttributeReread a) (ofE : IsReread e) : IsCmdReread (.assert span as e) := by
  have words : wordsOf (Layout.cmd (.assert span as e)) = Word.of .kwAssert ::
      (wordsOf (Layout.attributes as) ++ (wordsOf (Layout.expr e) ++ [Word.of .semicolon])) := by
    simp [Layout.cmd, textWords, Terminals.row, Spelling.kinds]
  exact rereadWord words (by decide) rfl fun rest => .byKind rfl (readsConditionCmd Cmd.respanAssert ofAs ofE _ rest)

theorem rereadAssume (ofAs : ∀ a ∈ as, IsAttributeReread a) (ofE : IsReread e) : IsCmdReread (.assume span as e) := by
  have words : wordsOf (Layout.cmd (.assume span as e)) = Word.of .kwAssume ::
      (wordsOf (Layout.attributes as) ++ (wordsOf (Layout.expr e) ++ [Word.of .semicolon])) := by
    simp [Layout.cmd, textWords, Terminals.row, Spelling.kinds]
  exact rereadWord words (by decide) rfl fun rest => .byKind rfl (readsConditionCmd Cmd.respanAssume ofAs ofE _ rest)

theorem rereadHavoc {vars : List Ident} (filled : vars ≠ []) (ofVars : ∀ id ∈ vars, isWritten id.name) :
    IsCmdReread (.havoc span vars) := by
  have words : wordsOf (Layout.cmd (.havoc span vars)) =
      Word.of .kwHavoc :: (wordsOf (Layout.names vars) ++ [Word.of .semicolon]) := by
    simp [Layout.cmd, textWords, Terminals.row, Spelling.kinds]
  refine rereadWord words (by decide) rfl fun rest => .byKind rfl (.advance fun t _ => ?_)
  refine .bind (readsIdents filled ofVars (by decide : Kind.semicolon ≠ .comma)) fun vars' same => ?_
  refine .expectLast rfl (.spanFrom fun span' => .pure ?_)
  simpa [Alike, bare] using same

theorem rereadYield : IsCmdReread (.yield span) := by
  have words : wordsOf (Layout.cmd (.yield span)) = [Word.of .kwYield, Word.of .semicolon] := by
    simp [Layout.cmd, textWords, Terminals.row, Spelling.kinds]
  exact rereadWord words (by decide) rfl fun rest => .byKind rfl (.advance fun t _ =>
    .expectLast rfl (.spanFrom fun span' => .pure rfl))

theorem rereadAssign {targets : List Target} {values : List Expr} (filled : targets ≠ []) (valued : values ≠ [])
    (ofTargets : ∀ t ∈ targets, IsTargetReread t) (ofValues : ∀ e ∈ values, IsReread e) :
    IsCmdReread (.assign span targets values) := by
  obtain ⟨t, ts, rfl⟩ := List.exists_cons_of_ne_nil filled
  obtain ⟨ofT, others⟩ := List.forall_mem_cons.mp ofTargets
  have front : wordsOf (commaList (Layout.target t :: ts.map Layout.target)) = nameWord t.root.name :: (indexWords t ++
      ts.flatMap fun t => Word.of .comma :: wordsOf (Layout.target t)) :=
    wordsComma.trans (by rw [ofT.words, List.cons_append])
  have words : wordsOf (Layout.cmd (.assign span (t :: ts) values)) = nameWord t.root.name :: (indexWords t ++
      ((ts.flatMap fun t => Word.of .comma :: wordsOf (Layout.target t)) ++ Word.of .assign ::
        (wordsOf (commaList (values.map Layout.expr)) ++ [Word.of .semicolon]))) := by
    simp [Layout.cmd, Layout.targetsMap, Layout.exprsMap, front, textWords, Terminals.row, Spelling.kinds]
  have marked (behind : List Word) := markedStarts .comma .assign (fun t => wordsOf (Layout.target t)) ts
    (Word.of .assign :: behind) rfl
  have starts (behind : List Word) : headKind (indexWords t ++
      ((ts.flatMap fun t => Word.of .comma :: wordsOf (Layout.target t)) ++ Word.of .assign :: behind)) ∈
        [Kind.leftBracket, .comma, .assign] := by
    rcases indexStarts t _ with same | same
    · exact same ▸ List.mem_cons_self
    · rcases marked behind with here | here <;> rw [same, here] <;> decide
  refine ⟨⟨_, _, words, (by decide : commandStart.contains .identifier = true)⟩, fun rest => ?_⟩
  rw [words]
  refine .ifYes rfl (readsNamed ofT.written fun place => .eatNo ?_ (.ifYes ?_ ?_))
  · rw [List.append_assoc, List.append_assoc, List.cons_append]
    exact fun colon => absurd (colon ▸ starts _) (by decide)
  · rw [List.append_assoc, List.append_assoc, List.cons_append]
    have each : ∀ k ∈ [Kind.leftBracket, .comma, .assign],
        (Token.KindSet.ofList [.comma, .leftBracket, .assign]).contains k = true := by decide
    exact each _ (starts _)
  have stops (behind : List Word) : headKind ((ts.flatMap fun t => Word.of .comma :: wordsOf (Layout.target t)) ++
      Word.of .assign :: behind) ≠ .leftBracket := by
    rcases marked behind with same | same <;> rw [same] <;> decide
  have further (t : Target) (mem : t ∈ ts) :
      ReadsBack (fun t => wordsOf (Layout.target t)) (· ≠ .leftBracket) Alike (ident >>= target expression) t :=
    fun rest stops => readsNextTarget (others t mem) stops
  refine .bind (readsTarget ofT ?_ place) fun t' same => ?_
  · rw [List.append_assoc]
    exact stops _
  refine .bind (readsMarked (by decide) further (by decide) (by decide : Kind.assign ≠ .comma)
    (by decide : Kind.assign ≠ .leftBracket)) fun ts' sames => .expect rfl ?_
  refine .bind (readsExprs valued ofValues (by decide : endsExpr .semicolon) (by decide : Kind.semicolon ≠ .comma))
    fun values' sameValues => .expectLast rfl (.spanFrom fun span' => .pure ?_)
  have sameTargets := Alike.cons same (alikeOfForall sames)
  simp_all [Alike, bare]

theorem callFront (isAsync isFree : Bool) :
    (Piece.text ((if isAsync then "async " else "") ++ (if isFree then "free " else "") ++ "call ")).words =
      flag .kwAsync isAsync ++ (flag .kwFree isFree ++ [Word.of .kwCall]) := by
  rw [textWords]
  cases isAsync <;> cases isFree <;> rfl

def callWords (x : Call) : List Word :=
  flag .kwAsync x.isAsync ++ (flag .kwFree x.isFree ++ (Word.of .kwCall ::
    (wordsOf (Layout.attributes x.attributes) ++ wordsOf (Layout.callParams x))))

theorem wordsCallCmd (x : Call) : wordsOf (Layout.cmd (.call span x)) = callWords x ++ [Word.of .semicolon] := by
  have attributes : Layout.callAttributes x = Layout.attributes x.attributes := by
    obtain ⟨_, _, _, _, _, as, _⟩ := x
    rw [Layout.callAttributes]
  rw [Layout.cmd, Layout.wordsOfAppend, Layout.wordsOfAppend, Layout.wordsOfCons, callFront, attributes]
  simp [callWords, textWords, Terminals.row, Spelling.kinds]

theorem readsWholeCall {x : Call} (h : IsCallReread x) (rest : List Word) :
    Reads (callWords x) rest (Alike x) (call expression) := by
  refine .look fun start => readsFlag ?_ (readsFlag (by decide : Kind.kwCall ≠ .kwFree) (.expect rfl ?_))
  · rw [List.append_assoc, headKindFlag]
    split <;> exact nofun
  · exact .bind (readsAttributes h.ofAs (h.noBrace rest)) fun found same => h.params same start rest

theorem rereadCallCmd {x : Call} (h : IsCallReread x) : IsCmdReread (.call span x) := by
  have reads (rest : List Word) : Reads (callWords x ++ [Word.of .semicolon]) rest
      (fun found => Alike (LabelOrCmd.cmd (.call span x)) found) (callCmd expression) := by
    refine .look fun start => .bind (readsWholeCall h _) fun x' same => .expectLast rfl (.spanFrom fun span' => .pure ?_)
    simpa [Alike, bare] using same
  have first : ∃ w more, callWords x ++ [Word.of .semicolon] = w :: more ∧
      (w.kind = .kwAsync ∨ w.kind = .kwFree ∨ w.kind = .kwCall) := by
    rw [callWords]
    cases x.isAsync <;> cases x.isFree <;> exact ⟨_, _, rfl, by decide⟩
  obtain ⟨w, more, same, starts⟩ := first
  refine rereadWord ((wordsCallCmd x).trans same) ?_ ?_ fun rest => ?_
  · rcases starts with kind | kind | kind <;> rw [kind] <;> decide
  · rcases starts with kind | kind | kind <;> rw [kind] <;> decide
  · rcases starts with kind | kind | kind <;> exact .byKind kind (same ▸ reads rest)

theorem rereadParallel {calls : List Call} (filled : calls ≠ []) (ofCalls : ∀ x ∈ calls, IsCallReread x)
    (shaped : ∀ x ∈ calls, x.isParallel as) (ofAs : ∀ a ∈ as, IsAttributeReread a) :
    IsCmdReread (.parallel span calls as) := by
  obtain ⟨x, xs, rfl⟩ := List.exists_cons_of_ne_nil filled
  have pipe : (Piece.text " | ").words = [Word.of .pipe] := textWords " | "
  have front : wordsOf (List.intercalate [.text " | "] (Layout.callParams x :: xs.map Layout.callParams)) =
      wordsOf (Layout.callParams x) ++ xs.flatMap fun x => Word.of .pipe :: wordsOf (Layout.callParams x) :=
    wordsSeparated pipe
  have words : wordsOf (Layout.cmd (.parallel span (x :: xs) as)) = Word.of .kwPar :: (wordsOf (Layout.attributes as) ++
      (wordsOf (Layout.callParams x) ++ xs.flatMap fun x => Word.of .pipe :: wordsOf (Layout.callParams x)) ++
        [Word.of .semicolon]) := by
    simp [Layout.cmd, Layout.callListMap, front, textWords, Terminals.row, Spelling.kinds]
  have params (y : Call) (mem : y ∈ x :: xs) {found : List Attribute} (same : Alike as found) (start : Span)
      (rest : List Word) : Reads (wordsOf (Layout.callParams y)) rest (Alike y)
        (callParams expression false false found start) := by
    obtain ⟨isAsync, isFree, attributes⟩ := shaped y mem
    have read := (ofCalls y mem).params (attributes ▸ same) start rest
    rwa [isAsync, isFree] at read
  have group (rest : List Word) : Reads (Word.of .kwPar :: (wordsOf (Layout.attributes as) ++
      (wordsOf (Layout.callParams x) ++ xs.flatMap fun x => Word.of .pipe :: wordsOf (Layout.callParams x))))
        (Word.of .semicolon :: rest) (Alike (x :: xs, as)) (parallelCalls expression) := by
    have noBrace := (ofCalls x List.mem_cons_self).noBrace
    refine .advance fun t _ => .bind (readsAttributes ofAs ?_) fun found same => ?_
    · rw [List.append_assoc]
      exact noBrace _
    have further (y : Call) (mem : y ∈ xs) : ReadsBack (fun x => wordsOf (Layout.callParams x)) (fun _ => True) Alike
        (currentSpan >>= fun start => callParams expression false false found start) y :=
      fun rest _ => .look fun start => params y (List.mem_cons_of_mem x mem) same start rest
    refine .bind (params x List.mem_cons_self same t.span _) fun x' sameX => ?_
    refine .last (readsMarked (by decide) further trivial (by decide : Kind.semicolon ≠ .pipe) trivial)
      fun xs' sames => .pure ?_
    exact Prod.ext (Alike.cons sameX (alikeOfForall sames)) same
  refine rereadWord words (by decide) rfl fun rest => .byKind rfl (.look fun start => ?_)
  rw [← List.cons_append]
  refine .bind (group rest) ?_
  rintro ⟨calls, found⟩ same
  obtain ⟨sameCalls, sameFound⟩ := same.pair
  refine .expectLast rfl (.spanFrom fun span' => .pure ?_)
  simp_all [Alike, bare]

end Commands

theorem alikeCmd {x : Cmd} {found : LabelOrCmd} (h : Alike (LabelOrCmd.cmd x) found) :
    ∃ x', found = .cmd x' ∧ Alike x x' := by
  cases found with
  | cmd x' => exact ⟨x', rfl, by simpa [Alike, bare] using h⟩
  | label id => simp [Alike, bare] at h
  | mistake => exact absurd h nofun

def transferWords : Transfer → List Word
  | .goto _ labels => Word.of .kwGoto :: wordsOf (Layout.names labels)
  | .leave _ => [Word.of .kwReturn]
  | .leaveWith _ value => Word.of .kwReturn :: wordsOf (Layout.expr value)

theorem wordsTransfer (t : Transfer) : wordsOf (Layout.transfer t) = transferWords t ++ [Word.of .semicolon] := by
  cases t <;>
    simp [Layout.transfer, Layout.transferLabels, transferWords, textWords, Terminals.row, Spelling.kinds]

theorem transferStarts (t : Transfer) (rest : List Word) :
    headKind (transferWords t ++ rest) = .kwGoto ∨ headKind (transferWords t ++ rest) = .kwReturn := by
  cases t with
  | goto span labels => exact .inl rfl
  | leave span => exact .inr rfl
  | leaveWith span value => exact .inr rfl

def IsTransferReread (t : Transfer) : Prop :=
  t.isShaped → (∀ span, t ≠ .leave span) →
    ∀ rest, Reads (transferWords t) (Word.of .semicolon :: rest) (Alike t) (blockTransfer expression)

theorem rereadGoto {span : Span} {labels : List Ident} (ofLabels : ∀ id ∈ labels, isWritten id.name) :
    IsTransferReread (.goto span labels) := by
  intro filled _ rest
  refine .look fun start => .eatYes rfl (.last (readsIdents filled ofLabels (by decide : Kind.semicolon ≠ .comma))
    fun labels' same => .spanFrom fun span' => .pure ?_)
  simpa [Alike, bare] using same

theorem rereadLeaveWith {span : Span} {value : Expr} (ofValue : IsReread value) :
    IsTransferReread (.leaveWith span value) := by
  intro _ _ rest
  refine .look fun start => .eatNo nofun (.eatYes rfl (.last (readsExpr ofValue (by decide : endsExpr .semicolon))
    fun value' same => .spanFrom fun span' => .pure ?_))
  simpa [Alike, bare] using same

theorem notLeft {b : Block} (ok : blockRead b) (span : Span) : b.transfer ≠ .leave span := by
  intro leaves
  rw [blockRead, leaves] at ok
  exact ok

structure IsBlockReread (b : Block) : Prop where
  opens : ∃ w more, wordsOf (Layout.block b) = w :: more ∧ (w.kind == .identifier) = true
  reads : ∀ rest, Reads (wordsOf (Layout.block b)) rest (Alike b) (block expression)

theorem rereadBlock {label : String} {cmds : List Cmd} {t : Transfer} {span : Span} (named : isWritten label)
    (ofCmds : ∀ x ∈ cmds, IsCmdReread x) (shaped : t.isShaped) (left : ∀ span, t ≠ .leave span)
    (ofT : IsTransferReread t) : IsBlockReread ⟨label, cmds, t, span⟩ := by
  have words : wordsOf (Layout.block ⟨label, cmds, t, span⟩) = nameWord label :: Word.of .colon ::
      ((cmds.flatMap fun x => wordsOf (Layout.cmd x)) ++ (transferWords t ++ [Word.of .semicolon])) := by
    simp [Layout.block, nameWords named, Layout.cmdsSpaced, wordsSpaced, wordsTransfer, textWords, Terminals.row,
      Spelling.kinds]
  have each (x : Cmd) (mem : x ∈ cmds) : ReadsBack (fun x => wordsOf (Layout.cmd x)) (fun _ => True)
      (fun x found => Alike (some x) found) (blockCmd expression) x := by
    refine fun rest _ => .last ((ofCmds x mem).reads rest) fun found same => ?_
    obtain ⟨x', rfl, same'⟩ := alikeCmd same
    exact .pure (congrArg some same')
  have opens (x : Cmd) (mem : x ∈ cmds) :
      ∃ w more, wordsOf (Layout.cmd x) = w :: more ∧ commandStart.contains w.kind = true ∧ True := by
    obtain ⟨w, more, same, starts⟩ := (ofCmds x mem).opens
    exact ⟨w, more, same, starts, trivial⟩
  refine ⟨⟨_, _, words, rfl⟩, fun rest => ?_⟩
  rw [words]
  refine readsNamed named fun place => .expect rfl (.bind (readsMany .blockCmd each opens ?_ trivial) fun cmds' sames => ?_)
  · rw [List.append_assoc]
    rcases transferStarts t _ with kind | kind <;> rw [kind] <;> decide
  refine .bind (ofT shaped left rest) fun t' same => .expectLast rfl (.spanFrom fun span' => .pure ?_)
  have sameCmds := alikeSomes sames
  simp_all [Alike, bare]

end Boogie.Grammar
