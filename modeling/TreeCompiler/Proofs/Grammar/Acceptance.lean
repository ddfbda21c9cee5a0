import TreeCompiler.Proofs.Grammar.Parser

/-!
# Acceptance — the parser decides the grammar

Derived tokens are a sentence of well-named tokens (`Procedure.DerivesAll.sentence`,
`Procedure.DerivesAll.wellNamed`) and are derived from one list of procedures only
(`Procedure.DerivesAll.unique`).  So a parse succeeds on exactly the derived tokens, and a parse
that fails has found the first fault (`Procedure.parse_decides`).
-/

namespace TreeCompiler

open Grammar (Sym Expands expands_nonterminal_iff bodies kinds Sentence)
open Located (tokens)
open TreeCompiler.Parser (ExpForm StmForm)

variable {machine : Machine} {σ : List Sym} {v w : List (Option Terminal)}

/-! ## Derived tokens are sentences -/

theorem Grammar.Expands.exp (f : ExpForm) (h : Expands (f.tail ++ σ) w) :
    Expands (Grammar.exp :: σ) (some (.keyword f.keyword) :: w) :=
  .replace (b := Grammar.word f.keyword :: f.tail)
    (by cases f <;> simp [bodies, ExpForm.keyword, ExpForm.tail]) (.read h)

theorem Grammar.Expands.stm (f : StmForm) (h : Expands (f.tail ++ σ) w) :
    Expands (Grammar.stm :: σ) (some (.keyword f.keyword) :: w) :=
  .replace (b := Grammar.word f.keyword :: f.tail)
    (by cases f <;> simp [bodies, StmForm.keyword, StmForm.tail]) (.read h)

theorem Grammar.Expands.binOp (op : BinOp) (h : Expands σ w) :
    Expands (.nonterminal .binOp :: σ) (some (.binOp op) :: w) :=
  .replace (b := [.terminal (.binOp op)]) (by cases op <;> simp [bodies, BinOp.all]) (.read h)

theorem Grammar.Expands.relOp (op : RelOp) (h : Expands σ w) :
    Expands (.nonterminal .relOp :: σ) (some (.relOp op) :: w) :=
  .replace (b := [.terminal (.relOp op)]) (by cases op <;> simp [bodies, RelOp.all]) (.read h)

theorem Token.Refers.expands {t : Token} {a : Temp} (ht : t.Refers machine a) (h : Expands σ w) :
    Expands (.nonterminal .reference :: σ) (t.terminal? :: w) := by
  cases ht with
  | temp _ => exact .replace (b := [.terminal .temp]) (by simp [bodies]) (.read h)
  | register _ => exact .replace (b := [.terminal .register]) (by simp [bodies]) (.read h)

theorem Label.DerivesAll.expands {us : List Token} {ls : List Label} (h : Label.DerivesAll us ls)
    (hv : Expands σ v) : Expands (.nonterminal .labels :: σ) (kinds us ++ v) := by
  induction h with
  | nil => exact .replace (b := []) (by simp [bodies]) hv
  | cons _ ih =>
      exact .replace (b := [Grammar.comma, Grammar.label, .nonterminal .labels])
        (by simp [bodies]) (.read (.read ih))

mutual

theorem Exp.Derives.expands {us : List Token} {e : Exp} {σ : List Sym}
    {v : List (Option Terminal)} :
    Exp.Derives machine us e → Expands σ v → Expands (Grammar.exp :: σ) (kinds us ++ v)
  | @Exp.Derives.binop _ op _ _ _ _ hl hr, hv => by
      have hright := hr.expands (.read (x := .punctuation .rparen) hv)
      have hleft := hl.expands (.read (x := .punctuation .comma) hright)
      have h := Expands.exp .binop (.read (.binOp op (.read hleft)))
      simpa [kinds, Token.terminal?, ExpForm.keyword] using h
  | .mem ha, hv => by
      have haddress := ha.expands (.read (x := .punctuation .rparen) hv)
      have h := Expands.exp .mem (.read haddress)
      simpa [kinds, Token.terminal?, ExpForm.keyword] using h
  | .temp ht, hv => by
      have h := Expands.exp .temp (ht.expands hv)
      simpa [kinds, Token.terminal?, ExpForm.keyword] using h
  | .eseq hs he, hv => by
      have hexp := he.expands (.read (x := .punctuation .rparen) hv)
      have hstm := hs.expands (.read (x := .punctuation .comma) hexp)
      have h := Expands.exp .eseq (.read hstm)
      simpa [kinds, Token.terminal?, ExpForm.keyword] using h
  | .name l, hv => .exp .name (.read hv)
  | .const n, hv => .exp .const (.read hv)
  | .call hf hargs, hv => by
      have harguments := hargs.expands (.read (x := .punctuation .rparen) hv)
      have hcallee := hf.expands harguments
      have h := Expands.exp .call (.read hcallee)
      simpa [kinds, Token.terminal?, ExpForm.keyword] using h

theorem Exp.DerivesAll.expands {us : List Token} {es : List Exp} {σ : List Sym}
    {v : List (Option Terminal)} :
    Exp.DerivesAll machine us es → Expands σ v →
      Expands (.nonterminal .arguments :: σ) (kinds us ++ v)
  | .nil, hv => .replace (b := []) (by simp [bodies]) hv
  | .cons he hes, hv => by
      have h := Expands.replace
        (b := [Grammar.comma, Grammar.exp, .nonterminal .arguments]) (n := .arguments)
        (by simp [bodies]) (.read (he.expands (hes.expands hv)))
      simpa [kinds, Token.terminal?, ExpForm.keyword] using h

theorem Stm.Derives.expands {us : List Token} {s : Stm} {σ : List Sym}
    {v : List (Option Terminal)} :
    Stm.Derives machine us s → Expands σ v → Expands (Grammar.stm :: σ) (kinds us ++ v)
  | .seq ha hb, hv => by
      have hsecond := hb.expands (.read (x := .punctuation .rparen) hv)
      have hfirst := ha.expands (.read (x := .punctuation .comma) hsecond)
      have h := Expands.stm .seq (.read hfirst)
      simpa [kinds, Token.terminal?, StmForm.keyword] using h
  | .label l, hv => .stm .label (.read hv)
  | .jump he hls, hv => by
      have hlabels := hls.expands (.read (x := .punctuation .rparen) hv)
      have h := Expands.stm .jump (.read (he.expands hlabels))
      simpa [kinds, Token.terminal?, StmForm.keyword] using h
  | @Stm.Derives.cjump _ op _ _ _ _ _ _ hl hr, hv => by
      have hlabels : Expands
          (Grammar.comma :: Grammar.label :: Grammar.comma :: Grammar.label :: Grammar.rparen :: σ)
          (some (.punctuation .comma) :: some .ident :: some (.punctuation .comma) ::
            some .ident :: some (.punctuation .rparen) :: v) :=
        .read (.read (.read (.read (.read hv))))
      have hright := hr.expands hlabels
      have hleft := hl.expands (.read (x := .punctuation .comma) hright)
      have h := Expands.stm .cjump (.read (.relOp op (.read hleft)))
      simpa [kinds, Token.terminal?, StmForm.keyword] using h
  | .move hd hs, hv => by
      have hsource := hs.expands (.read (x := .punctuation .rparen) hv)
      have hdestination := hd.expands (.read (x := .punctuation .comma) hsource)
      have h := Expands.stm .move (.read hdestination)
      simpa [kinds, Token.terminal?, StmForm.keyword] using h
  | .exp he, hv => by
      have h := Expands.stm .exp (.read (he.expands (.read (x := .punctuation .rparen) hv)))
      simpa [kinds, Token.terminal?, StmForm.keyword] using h

end

theorem Stm.DerivesAll.expands {us : List Token} {ss : List Stm}
    (h : Stm.DerivesAll machine us ss) (hv : Expands σ v) :
    Expands (.nonterminal .statements :: σ) (kinds us ++ v) := by
  induction h with
  | nil => exact .replace (b := []) (by simp [bodies]) hv
  | cons hs _ ih =>
      have h := Expands.replace (b := [Grammar.stm, .nonterminal .statements])
        (n := .statements) (by simp [bodies]) (hs.expands ih)
      simpa [kinds] using h

theorem Procedure.Derives.expands {us : List Token} {p : Procedure}
    (h : Procedure.Derives machine us p) (hv : Expands σ v) :
    Expands (.nonterminal .procedure :: σ) (kinds us ++ v) := by
  cases h with
  | mk hbody =>
      have hstms := hbody.expands (.read (x := .punctuation .rbrace) hv)
      have h := Expands.replace (b := [Grammar.word .proc, Grammar.label, Grammar.word .frame,
        Grammar.number, Grammar.lbrace, .nonterminal .statements, Grammar.rbrace])
        (n := .procedure) (by simp [bodies]) (.read (.read (.read (.read (.read hstms)))))
      simpa [kinds, Token.terminal?] using h

theorem Procedure.DerivesAll.sentence {us : List Token} {ps : List Procedure}
    (h : Procedure.DerivesAll machine us ps) : Sentence us := by
  refine Grammar.sentence_iff.2 ?_
  induction h with
  | nil => exact .replace (b := []) (by simp [bodies]) .nil
  | cons hp _ ih =>
      have h := Expands.replace (b := [.nonterminal .procedure, .nonterminal .program])
        (n := .program) (by simp [bodies]) (hp.expands ih)
      simpa [kinds] using h

/-! ## Derived tokens are well-named -/

theorem Label.DerivesAll.wellNamed {us : List Token} {ls : List Label}
    (h : Label.DerivesAll us ls) : ∀ t ∈ us, t.WellNamed machine := by
  induction h with
  | nil => simp
  | cons _ ih => simpa [Token.WellNamed] using ih

mutual

theorem Exp.Derives.wellNamed {us : List Token} {e : Exp} :
    Exp.Derives machine us e → ∀ t ∈ us, t.WellNamed machine
  | .binop hl hr => by
      simpa [Token.WellNamed, or_imp, forall_and] using ⟨hl.wellNamed, hr.wellNamed⟩
  | .mem ha => by simpa [Token.WellNamed, or_imp, forall_and] using ha.wellNamed
  | .temp ht => by simpa [Token.WellNamed] using ht.wellNamed
  | .eseq hs he => by simpa [Token.WellNamed, or_imp, forall_and] using ⟨hs.wellNamed, he.wellNamed⟩
  | .name l => by simp [Token.WellNamed]
  | .const n => by simp [Token.WellNamed]
  | .call hf hargs => by
      simpa [Token.WellNamed, or_imp, forall_and] using ⟨hf.wellNamed, hargs.wellNamed⟩

theorem Exp.DerivesAll.wellNamed {us : List Token} {es : List Exp} :
    Exp.DerivesAll machine us es → ∀ t ∈ us, t.WellNamed machine
  | .nil => by simp
  | .cons he hes => by
      simpa [Token.WellNamed, or_imp, forall_and] using ⟨he.wellNamed, hes.wellNamed⟩

theorem Stm.Derives.wellNamed {us : List Token} {s : Stm} :
    Stm.Derives machine us s → ∀ t ∈ us, t.WellNamed machine
  | .seq ha hb => by simpa [Token.WellNamed, or_imp, forall_and] using ⟨ha.wellNamed, hb.wellNamed⟩
  | .label l => by simp [Token.WellNamed]
  | .jump he hls => by
      simpa [Token.WellNamed, or_imp, forall_and] using ⟨he.wellNamed, hls.wellNamed⟩
  | .cjump hl hr => by
      simpa [Token.WellNamed, or_imp, forall_and] using ⟨hl.wellNamed, hr.wellNamed⟩
  | .move hd hs => by simpa [Token.WellNamed, or_imp, forall_and] using ⟨hd.wellNamed, hs.wellNamed⟩
  | .exp he => by simpa [Token.WellNamed, or_imp, forall_and] using he.wellNamed

end

theorem Stm.DerivesAll.wellNamed {us : List Token} {ss : List Stm}
    (h : Stm.DerivesAll machine us ss) : ∀ t ∈ us, t.WellNamed machine := by
  induction h with
  | nil => simp
  | cons hs _ ih => simpa [or_imp, forall_and] using ⟨hs.wellNamed, ih⟩

theorem Procedure.DerivesAll.wellNamed {us : List Token} {ps : List Procedure}
    (h : Procedure.DerivesAll machine us ps) : ∀ t ∈ us, t.WellNamed machine := by
  induction h with
  | nil => simp
  | cons hp _ ih =>
      cases hp with
      | mk hbody =>
          simpa [Token.WellNamed, or_imp, forall_and] using ⟨hbody.wellNamed, ih⟩

/-! ## Derivations are unique -/

/-- Labels, up to the closing parenthesis. -/
theorem Label.DerivesAll.unique {us us' v v' : List Token} {ls ls' : List Label}
    (h : Label.DerivesAll us ls) (h' : Label.DerivesAll us' ls')
    (heq : us ++ .punctuation .rparen :: v = us' ++ .punctuation .rparen :: v') :
    ls = ls' ∧ v = v' := by
  induction h generalizing us' ls' with
  | nil =>
      cases h' with
      | nil => simpa using heq
      | cons h' => simp at heq
  | cons h ih =>
      cases h' with
      | nil => simp at heq
      | cons h' =>
          simp only [List.cons_append, List.cons.injEq, Token.ident.injEq, true_and] at heq
          obtain ⟨rfl, heq⟩ := heq
          obtain ⟨rfl, rfl⟩ := ih h' heq
          exact ⟨rfl, rfl⟩

/-- A token refers to one temp. -/
theorem Token.Refers.unique {t : Token} {a b : Temp} (ha : t.Refers machine a)
    (hb : t.Refers machine b) : a = b := by
  cases ha with
  | temp _ =>
      cases hb with
      | temp _ => rfl
  | register h =>
      cases hb with
      | register h' => exact Option.some.inj (h.symm.trans h')

mutual

theorem Exp.Derives.unique {us us' v v' : List Token} {e e' : Exp} :
    Exp.Derives machine us e → Exp.Derives machine us' e' → us ++ v = us' ++ v' →
      e = e' ∧ v = v'
  | .binop hl hr, h', heq => by
      cases h' with
      | binop hl' hr' =>
          -- `BINOP(op, left, right)`: the parts end in the same places, from left to right
          simp only [List.cons_append, List.append_assoc, List.nil_append, List.cons.injEq,
            Token.binOp.injEq, true_and] at heq
          obtain ⟨rfl, heq⟩ := heq
          obtain ⟨rfl, heq⟩ := hl.unique hl' heq
          obtain ⟨rfl, heq⟩ := hr.unique hr' (List.cons.inj heq).2
          exact ⟨rfl, (List.cons.inj heq).2⟩
      | _ => simp at heq -- no other form begins with the keyword
  | .mem ha, h', heq => by
      cases h' with
      | mem ha' =>
          simp only [List.cons_append, List.append_assoc, List.nil_append, List.cons.injEq,
            true_and] at heq
          obtain ⟨rfl, heq⟩ := ha.unique ha' heq
          exact ⟨rfl, (List.cons.inj heq).2⟩
      | _ => simp at heq
  | .temp ht, h', heq => by
      cases h' with
      | temp ht' =>
          simp only [List.cons_append, List.nil_append, List.cons.injEq, true_and] at heq
          obtain ⟨rfl, heq⟩ := heq
          exact ⟨by rw [ht.unique ht'], heq⟩
      | _ => simp at heq
  | .eseq hs he, h', heq => by
      cases h' with
      | eseq hs' he' =>
          simp only [List.cons_append, List.append_assoc, List.nil_append, List.cons.injEq,
            true_and] at heq
          obtain ⟨rfl, heq⟩ := hs.unique hs' heq
          obtain ⟨rfl, heq⟩ := he.unique he' (List.cons.inj heq).2
          exact ⟨rfl, (List.cons.inj heq).2⟩
      | _ => simp at heq
  | .name l, h', heq => by
      cases h' with
      | name l' => simpa using heq
      | _ => simp at heq
  | .const n, h', heq => by
      cases h' with
      | const n' => simpa using heq
      | _ => simp at heq
  | .call hf hargs, h', heq => by
      cases h' with
      | call hf' hargs' =>
          simp only [List.cons_append, List.append_assoc, List.nil_append, List.cons.injEq,
            true_and] at heq
          obtain ⟨rfl, heq⟩ := hf.unique hf' heq
          obtain ⟨rfl, rfl⟩ := hargs.unique hargs' heq
          exact ⟨rfl, rfl⟩
      | _ => simp at heq

/-- Arguments, up to the closing parenthesis. -/
theorem Exp.DerivesAll.unique {us us' v v' : List Token} {es es' : List Exp} :
    Exp.DerivesAll machine us es → Exp.DerivesAll machine us' es' →
      us ++ .punctuation .rparen :: v = us' ++ .punctuation .rparen :: v' → es = es' ∧ v = v'
  | .nil, h', heq => by
      cases h' with
      | nil => simpa using heq
      | cons _ _ => simp at heq
  | .cons he hes, h', heq => by
      cases h' with
      | nil => simp at heq
      | cons he' hes' =>
          simp only [List.cons_append, List.append_assoc, List.cons.injEq, true_and] at heq
          obtain ⟨rfl, heq⟩ := he.unique he' heq
          obtain ⟨rfl, rfl⟩ := hes.unique hes' heq
          exact ⟨rfl, rfl⟩

theorem Stm.Derives.unique {us us' v v' : List Token} {s s' : Stm} :
    Stm.Derives machine us s → Stm.Derives machine us' s' → us ++ v = us' ++ v' →
      s = s' ∧ v = v'
  | .seq ha hb, h', heq => by
      cases h' with
      | seq ha' hb' =>
          simp only [List.cons_append, List.append_assoc, List.nil_append, List.cons.injEq,
            true_and] at heq
          obtain ⟨rfl, heq⟩ := ha.unique ha' heq
          obtain ⟨rfl, heq⟩ := hb.unique hb' (List.cons.inj heq).2
          exact ⟨rfl, (List.cons.inj heq).2⟩
      | _ => simp at heq
  | .label l, h', heq => by
      cases h' with
      | label l' => simpa using heq
      | _ => simp at heq
  | .jump he hls, h', heq => by
      cases h' with
      | jump he' hls' =>
          -- the labels reach up to the parenthesis
          simp only [List.cons_append, List.append_assoc, List.nil_append, List.cons.injEq,
            true_and] at heq
          obtain ⟨rfl, heq⟩ := he.unique he' heq
          obtain ⟨rfl, rfl⟩ := hls.unique hls' heq
          exact ⟨rfl, rfl⟩
      | _ => simp at heq
  | .cjump hl hr, h', heq => by
      cases h' with
      | cjump hl' hr' =>
          simp only [List.cons_append, List.append_assoc, List.nil_append, List.cons.injEq,
            Token.relOp.injEq, true_and] at heq
          obtain ⟨rfl, heq⟩ := heq
          obtain ⟨rfl, heq⟩ := hl.unique hl' heq
          obtain ⟨rfl, heq⟩ := hr.unique hr' (List.cons.inj heq).2
          -- what is left is `, then, else)`
          simpa [and_assoc] using heq
      | _ => simp at heq
  | .move hd hs, h', heq => by
      cases h' with
      | move hd' hs' =>
          simp only [List.cons_append, List.append_assoc, List.nil_append, List.cons.injEq,
            true_and] at heq
          obtain ⟨rfl, heq⟩ := hd.unique hd' heq
          obtain ⟨rfl, heq⟩ := hs.unique hs' (List.cons.inj heq).2
          exact ⟨rfl, (List.cons.inj heq).2⟩
      | _ => simp at heq
  | .exp he, h', heq => by
      cases h' with
      | exp he' =>
          simp only [List.cons_append, List.append_assoc, List.nil_append, List.cons.injEq,
            true_and] at heq
          obtain ⟨rfl, heq⟩ := he.unique he' heq
          exact ⟨rfl, (List.cons.inj heq).2⟩
      | _ => simp at heq

end

/-- A statement begins with a keyword. -/
theorem Stm.Derives.head {us : List Token} {s : Stm} (h : Stm.Derives machine us s) :
    ∃ k vs, us = .keyword k :: vs := by
  cases h <;> exact ⟨_, _, rfl⟩

/-- Statements, up to the closing brace. -/
theorem Stm.DerivesAll.unique {us us' v v' : List Token} {ss ss' : List Stm}
    (h : Stm.DerivesAll machine us ss) (h' : Stm.DerivesAll machine us' ss')
    (heq : us ++ .punctuation .rbrace :: v = us' ++ .punctuation .rbrace :: v') :
    ss = ss' ∧ v = v' := by
  induction h generalizing us' ss' with
  | nil =>
      cases h' with
      | nil => simpa using heq
      | cons hs' _ =>
          obtain ⟨k, vs, rfl⟩ := hs'.head
          simp at heq
  | cons hs _ ih =>
      cases h' with
      | nil =>
          obtain ⟨k, vs, rfl⟩ := hs.head
          simp at heq
      | cons hs' hss' =>
          simp only [List.append_assoc] at heq
          obtain ⟨rfl, heq⟩ := hs.unique hs' heq
          obtain ⟨rfl, rfl⟩ := ih hss' heq
          exact ⟨rfl, rfl⟩

theorem Procedure.Derives.unique {us us' v v' : List Token} {p p' : Procedure}
    (h : Procedure.Derives machine us p) (h' : Procedure.Derives machine us' p')
    (heq : us ++ v = us' ++ v') : p = p' ∧ v = v' := by
  cases h with
  | mk hbody =>
      cases h' with
      | mk hbody' =>
          simp only [List.cons_append, List.append_assoc, List.nil_append, List.cons.injEq,
            Token.ident.injEq, Token.number.injEq, true_and] at heq
          obtain ⟨rfl, rfl, heq⟩ := heq
          obtain ⟨rfl, rfl⟩ := hbody.unique hbody' heq
          exact ⟨rfl, rfl⟩

theorem Procedure.DerivesAll.unique {us : List Token} {ps ps' : List Procedure}
    (h : Procedure.DerivesAll machine us ps) (h' : Procedure.DerivesAll machine us ps') :
    ps = ps' := by
  generalize heq : us = us' at h'
  induction h generalizing us' ps' with
  | nil =>
      cases h' with
      | nil => rfl
      | cons hp' _ =>
          cases hp'
          simp at heq
  | cons hp _ ih =>
      cases h' with
      | nil =>
          cases hp
          simp at heq
      | cons hp' hps' =>
          obtain ⟨rfl, heq⟩ := hp.unique hp' heq
          rw [ih _ heq hps']

/-! ## The parser decides the grammar -/

/-- A sentence of well-named tokens has no fault. -/
theorem FirstFault.not_sentence {eof : Nat} {ts : List Located} {e : ParseError}
    (he : FirstFault machine eof ts e) :
    ¬ (Sentence (tokens ts) ∧ ∀ t ∈ tokens ts, t.WellNamed machine) := by
  rintro ⟨hsentence, hnamed⟩
  cases he with
  | @unexpected pre post t _ hsplit _ hfault _ _ =>
      refine hfault ⟨tokens post, ?_⟩
      rw [hsplit] at hsentence
      simpa using hsentence
  | unfinished _ hfault _ _ => exact hfault hsentence
  | @reference pre post t mark _ hsplit _ hfault _ _ =>
      refine hfault.not_wellNamed (hnamed t.token ?_)
      simp [hsplit]

theorem Procedure.parse_outcome (machine : Machine) (ts : List Located) :
    TreeCompiler.Parser.Outcome (DerivesAll machine (tokens ts))
      (FirstFault machine ((ts.getLast?.map (·.stop)).getD 0) ts) (parse machine ts) :=
  TreeCompiler.Parser.procedures_outcome ⟨machine, (ts.getLast?.map (·.stop)).getD 0⟩ ts

theorem Procedure.firstFault_of_parse {ts : List Located} {e : ParseError}
    (h : parse machine ts = .error e) :
    FirstFault machine ((ts.getLast?.map (·.stop)).getD 0) ts e := by
  have houtcome := parse_outcome machine ts
  rw [h] at houtcome
  exact houtcome

theorem Procedure.exists_parse {ts : List Located}
    (h : Sentence (tokens ts) ∧ ∀ t ∈ tokens ts, t.WellNamed machine) :
    ∃ ps, parse machine ts = .ok ps := by
  cases hr : parse machine ts with
  | ok ps => exact ⟨ps, rfl⟩
  | error e => exact absurd h (firstFault_of_parse hr).not_sentence

theorem Procedure.parse_eq_ok_iff (machine : Machine) (ts : List Located) (ps : List Procedure) :
    parse machine ts = .ok ps ↔ DerivesAll machine (tokens ts) ps := by
  have hsound {ps : List Procedure} (h : parse machine ts = .ok ps) :
      DerivesAll machine (tokens ts) ps := by
    have houtcome := parse_outcome machine ts
    rw [h] at houtcome
    exact houtcome
  refine ⟨hsound, fun h => ?_⟩
  obtain ⟨ps', hps'⟩ := exists_parse ⟨h.sentence, h.wellNamed⟩
  rw [hps', h.unique (hsound hps')]

/-- Parsing yields the procedures that the tokens stand for, and does so if the tokens are a
sentence of well-named tokens; else it reports the first fault, of which there is only one. -/
theorem Procedure.parse_decides (machine : Machine) (ts : List Located) :
    (∀ ps, parse machine ts = .ok ps ↔ DerivesAll machine (tokens ts) ps) ∧
      ((∃ ps, parse machine ts = .ok ps) ↔
        Sentence (tokens ts) ∧ ∀ t ∈ tokens ts, t.WellNamed machine) ∧
      (∀ e, parse machine ts = .error e →
        FirstFault machine ((ts.getLast?.map (·.stop)).getD 0) ts e) ∧
      ∀ e e', FirstFault machine ((ts.getLast?.map (·.stop)).getD 0) ts e →
        FirstFault machine ((ts.getLast?.map (·.stop)).getD 0) ts e' → e.message = e'.message := by
  refine ⟨parse_eq_ok_iff machine ts, ⟨?_, exists_parse⟩, fun e => firstFault_of_parse,
    fun e e' => FirstFault.unique⟩
  rintro ⟨ps, hps⟩
  have hderives := (parse_eq_ok_iff machine ts ps).1 hps
  exact ⟨hderives.sentence, hderives.wellNamed⟩

end TreeCompiler
