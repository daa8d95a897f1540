import Catlib.Peg.Parser.Reads

/-! # The turns of the parser

What reads the nodes and the memory has no fault of the text. What parses moves the cursor on, so
the loops and the nesting have turns enough when there are more of them than bytes.
-/
namespace Catlib.Peg.Parser

open Traced

/-- A program that has nothing to do with the text. -/
structure Quiet {α : Type} (m : PegM α) : Prop where
  scans : ∀ (reads : Prop) (s : PegParser), Scans reads m s fun _ _ => True
  stops : StopsAt m

section Quiet

variable {α β : Type} {m : PegM α} {f : α → PegM β}

theorem Quiet.pure {a : α} : Quiet (Pure.pure a : PegM α) := ⟨fun _ _ => Run.pure trivial,Stops.pure⟩
theorem Quiet.get : Quiet Traced.get := ⟨fun _ _ => Run.get trivial,Stops.get⟩
theorem Quiet.modify {g : PegParser → PegParser} : Quiet (Traced.modify g) := ⟨fun _ _ => Run.modify trivial,Stops.modify⟩
theorem Quiet.note {e : Event} (h : e.Inside) : Quiet (Traced.note e) := ⟨fun _ _ => Run.note fun _ => trivial,Stops.note h⟩
theorem Quiet.fail {e : Fault} (h : ¬e.Lexical) : Quiet (Traced.fail e : PegM α) :=
  ⟨fun _ _ => Run.fail fun hl => absurd hl h,Stops.fail⟩
theorem Quiet.bind (hm : Quiet m) (hf : ∀ a, Quiet (f a)) : Quiet (m >>= f) :=
  ⟨fun reads s => Run.bind (hm.scans reads s) fun a t _ => (hf a).scans reads t,hm.stops.bind fun a => (hf a).stops⟩
theorem Quiet.ite {p : Prop} [Decidable p] {m m' : PegM α} (h : Quiet m) (h' : Quiet m') : Quiet (if p then m else m') := by
  split
  · exact h
  · exact h'

theorem Quiet.modifyPeg {g : PegGrammar → PegGrammar} : Quiet (modifyPeg g) := Quiet.modify
theorem Quiet.setErr {e : PegErr} : Quiet (setErr e) := Quiet.modify
theorem Quiet.setBad {b : Bad} : Quiet (setBad b) := Quiet.modify

theorem Quiet.node {i : ℕ} : Quiet (node i) := Quiet.get.bind fun s => by
  split
  · exact Quiet.pure
  · exact Quiet.fail fun h => h

theorem Quiet.setNode {i : ℕ} {pn : PegNode} : Quiet (setNode i pn) := Quiet.modifyPeg
theorem Quiet.updNode {i : ℕ} {g : PegNode → PegNode} : Quiet (updNode i g) := Quiet.node.bind fun _ => Quiet.setNode

variable (E : Env)

theorem Quiet.malloc : Quiet (malloc E) :=
  Quiet.get.bind fun _ => Quiet.modify.bind fun _ => Quiet.ite Quiet.pure (Quiet.modify.bind fun _ => Quiet.pure)

theorem Quiet.freeBlock (id : ℕ) : Quiet (freeBlock id) :=
  Quiet.get.bind fun _ => Quiet.ite Quiet.modify (Quiet.fail fun h => h)

theorem Quiet.free (p : Ptr) : Quiet (free p) := by
  cases p with
  | unset => exact Quiet.fail fun h => h
  | null => exact Quiet.pure
  | block id bytes => exact Quiet.freeBlock id

theorem Quiet.freeStr (i : ℕ) : Quiet (freeStr i) := Quiet.node.bind fun _ => (Quiet.free _).bind fun _ => Quiet.updNode

theorem Quiet.dropNode (i : ℕ) : Quiet (dropNode i) :=
  Quiet.get.bind fun _ => Quiet.ite (Quiet.fail fun h => h) (Quiet.modifyPeg.bind fun _ => Quiet.updNode)

theorem Quiet.pegNodeFree (f : ℕ) (nn : ℤ) : Quiet (pegNodeFree f nn) := by
  induction f generalizing nn with
  | zero => exact Quiet.fail fun h => h
  | succ f ih =>
    have hdrop : ∀ i, Quiet (do Parser.freeStr i; Parser.dropNode i) := fun i => (Quiet.freeStr i).bind fun _ => Quiet.dropNode i
    refine Quiet.get.bind fun _ => Quiet.ite Quiet.pure (Quiet.node.bind fun pn => ?_)
    cases pn.type with
    | none => exact Quiet.pure
    | definition => exact (ih _).bind fun _ => (ih _).bind fun _ => Quiet.dropNode _
    | sequence => exact (ih _).bind fun _ => (ih _).bind fun _ => Quiet.dropNode _
    | primary => exact (ih _).bind fun _ => (ih _).bind fun _ => Quiet.node.bind fun _ => Quiet.ite (hdrop _) (Quiet.dropNode _)
    | identifier => exact Quiet.setNode.bind fun _ => Quiet.ite Quiet.pure (hdrop _)
    | literal => exact hdrop _
    | cls => exact hdrop _

theorem Quiet.freeArray (o : Option ℕ) : Quiet (freeArray o) := by
  cases o with
  | none => exact Quiet.pure
  | some id => exact Quiet.freeBlock id

theorem Quiet.reallocNodes (n : ℕ) : Quiet (reallocNodes E n) := (Quiet.malloc E).bind fun o => by
  cases o with
  | none => exact Quiet.pure
  | some id => exact Quiet.get.bind fun _ => (Quiet.freeArray _).bind fun _ => Quiet.modifyPeg.bind fun _ => Quiet.pure

theorem Quiet.growNodes : Quiet (growNodes E) := Quiet.get.bind fun _ =>
  Quiet.ite Quiet.pure <| Quiet.ite Quiet.pure <| Quiet.ite
    (Quiet.modifyPeg.bind fun _ => (Quiet.reallocNodes E 16).bind fun _ =>
      Quiet.ite (Quiet.modifyPeg.bind fun _ => Quiet.pure) ((Quiet.note (e := .noArray) trivial).bind fun _ => Quiet.pure))
    (Quiet.ite Quiet.pure ((Quiet.reallocNodes E _).bind fun _ => Quiet.ite (Quiet.modifyPeg.bind fun _ => Quiet.pure) Quiet.pure))

theorem Quiet.pegNodeNew (type : PegType) (line : ℕ) : Quiet (pegNodeNew E type line) := (Quiet.growNodes E).bind fun _ =>
  Quiet.ite Quiet.pure <| Quiet.get.bind fun _ => Quiet.ite (Quiet.fail fun h => h) <| Quiet.node.bind fun _ =>
    Quiet.ite (Quiet.fail fun h => h) (Quiet.modifyPeg.bind fun _ => Quiet.setNode.bind fun _ => Quiet.pure)

theorem Quiet.sameName (name : List UInt8) (r : Raw) : Quiet (sameName name r) := by
  rw [Parser.sameName]
  split
  · exact Quiet.fail fun h => h
  refine Quiet.ite Quiet.pure ?_
  split
  · exact Quiet.fail fun h => h
  · exact Quiet.fail fun h => h
  · exact Quiet.get.bind fun _ => Quiet.ite Quiet.pure (Quiet.fail fun h => h)

theorem Quiet.findIdIn (name : List UInt8) (is : List ℕ) : Quiet (findIdIn name is) := by
  induction is with
  | nil => exact Quiet.pure
  | cons i is ih => exact Quiet.node.bind fun _ => Quiet.ite ((Quiet.sameName _ _).bind fun _ => Quiet.ite Quiet.pure ih) ih

theorem Quiet.findId (name : List UInt8) : Quiet (findId name) := Quiet.get.bind fun _ => Quiet.findIdIn name _

theorem Quiet.copyStr (bytes : List UInt8) (r : Raw) : Quiet (copyStr E bytes r) := (Quiet.malloc E).bind fun o => by
  cases o with
  | none => exact Quiet.setErr.bind fun _ => Quiet.pure
  | some id => exact Quiet.pure

theorem Quiet.readName (r : Raw) : Quiet (readName r) := by
  rw [Parser.readName]
  split
  · exact Quiet.fail fun h => h
  · exact Quiet.fail fun h => h
  · exact Quiet.get.bind fun _ => Quiet.ite Quiet.pure (Quiet.fail fun h => h)

theorem Quiet.addUndefToken (id : ℕ) : Quiet (addUndefToken E id) := Quiet.node.bind fun _ => Quiet.ite Quiet.pure <|
  Quiet.get.bind fun _ => Quiet.ite (Quiet.setErr.bind fun _ => Quiet.pure) <| (Quiet.readName _).bind fun _ =>
    Quiet.ite Quiet.pure <| Quiet.ite Quiet.pure <| Quiet.get.bind fun _ => Quiet.modifyPeg.bind fun _ => Quiet.updNode.bind fun _ =>
        Quiet.pure

theorem Quiet.checkIds (is : List ℕ) : Quiet (checkIds E is) := by
  induction is with
  | nil => exact Quiet.pure
  | cons i is ih =>
    exact Quiet.node.bind fun _ => Quiet.ite ((Quiet.addUndefToken E i).bind fun _ => Quiet.ite ih <| Quiet.get.bind fun _ =>
      Quiet.ite Quiet.pure <| Quiet.setErr.bind fun _ => Quiet.modify.bind fun _ => (Quiet.readName _).bind fun _ =>
        Quiet.modify.bind fun _ => Quiet.pure) ih

theorem Quiet.freeAll (is : List ℕ) : Quiet (freeAll E is) := by
  induction is with
  | nil => exact Quiet.pure
  | cons i is ih => exact (Quiet.pegNodeFree _ _).bind fun _ => ih

theorem Quiet.pegFreeNodes : Quiet (pegFreeNodes E) := Quiet.get.bind fun _ => (Quiet.freeAll E _).bind fun _ => Quiet.get.bind fun _ =>
  Quiet.ite (Quiet.get.bind fun _ => (Quiet.freeArray _).bind fun _ => Quiet.modifyPeg) Quiet.pure

end Quiet

/-- What a program that returns 1 returns with it. -/
structure Ends {φ α : Type} (R : α → Prop) (m : PegM (Ret φ α)) : Prop where
  scans : ∀ (reads : Prop) (s : PegParser), Scans reads m s fun r _ => ∀ x, r = .yes x → R x
  stops : StopsAt m

section Ends

variable {φ ψ α β γ : Type} {R : α → Prop} {R' : β → Prop}

theorem Ends.pure {r : Ret φ α} (h : ∀ x, r = .yes x → R x) : Ends R (Pure.pure r : PegM (Ret φ α)) := ⟨fun _ _ => Run.pure h,Stops.pure⟩

theorem Ends.yes {a : α} (h : R a) : Ends R (Pure.pure (.yes a) : PegM (Ret φ α)) := Ends.pure fun x hx => by
  cases hx
  exact h

theorem Ends.no : Ends R (Pure.pure .no : PegM (Ret φ α)) := Ends.pure fun _ h => nomatch h
theorem Ends.failed {e : φ} : Ends R (Pure.pure (.fail e) : PegM (Ret φ α)) := Ends.pure fun _ h => nomatch h

theorem Ends.after {m : PegM γ} {f : γ → PegM (Ret φ α)} (hm : Quiet m) (hf : ∀ c, Ends R (f c)) : Ends R (m >>= f) :=
  ⟨fun reads s => Run.bind (hm.scans reads s) fun c t _ => (hf c).scans reads t,hm.stops.bind fun c => (hf c).stops⟩

theorem Ends.bind {m : PegM (Ret φ α)} {f : Ret φ α → PegM (Ret ψ β)} (hm : Ends R m) (hf : ∀ r, (∀ x, r = .yes x → R x) → Ends R' (f r)) :
    Ends R' (m >>= f) :=
  ⟨fun reads s => Run.bind (hm.scans reads s) fun r t hr => (hf r hr).scans reads t,
    hm.stops.bind_of (fun s hev => hm.scans True s fun w hw _ => hev w hw) fun r hr => (hf r hr).stops⟩

theorem Ends.scan {n : Scan γ} {P : γ → Prop} {f : γ → PegM (Ret φ α)} (hn : ∀ reads : Prop, Scans reads n () fun c _ => P c)
    (hs : OfText n)
    (hf : ∀ c, P c → Ends R (f c)) : Ends R (lift n >>= f) :=
  ⟨fun reads _ => Run.bind (Run.lift (P := fun c _ => P c) (hn reads)) fun c t hc => (hf c hc).scans reads t,
    (Stops.lift hs.stops).bind_of (fun _ hev => Run.lift (P := fun c _ => P c) (hn True) fun w hw _ => hev w hw) fun c hc =>
        (hf c hc).stops⟩

theorem Ends.then {m : PegM (Ret φ α)} {f : Ret φ α → PegM β} (hm : Ends R m) (hf : ∀ r, (∀ x, r = .yes x → R x) → Quiet (f r)) :
    Quiet (m >>= f) :=
  ⟨fun reads s => Run.bind (hm.scans reads s) fun r t hr => (hf r hr).scans reads t,
    hm.stops.bind_of (fun s hev => hm.scans True s fun w hw _ => hev w hw) fun r hr => (hf r hr).stops⟩

theorem Ends.ite {p : Prop} [Decidable p] {m m' : PegM (Ret φ α)} (h : p → Ends R m) (h' : ¬p → Ends R m') :
    Ends R (if p then m else m') := by
  split
  · exact h ‹_›
  · exact h' ‹_›

theorem Ends.mono {m : PegM (Ret φ α)} {S : α → Prop} (h : Ends R m) (hRS : ∀ a, R a → S a) : Ends S m :=
  ⟨fun reads s => (h.scans reads s).mono fun _ _ hr x hx => hRS x (hr x hx),h.stops⟩

end Ends

/-! ## Progress -/

section Progress

variable {E : Env} {pc : PegCursor}

/-- The cursor that is returned is behind, or it is not in front. -/
abbrev Past (E : Env) (pc : PegCursor) (x : ℕ × PegCursor) : Prop := Behind E.input pc x.2
abbrev NotBefore (E : Env) (pc : PegCursor) (x : ℕ × PegCursor) : Prop := Ahead E.input pc x.2

theorem spaced_past {m : PegM Found} (h : Ends (Past E pc) m) : Ends (Past E pc) (spaced E m) := by
  refine h.bind fun r hr => ?_
  rcases r with e | _ | ⟨nn,npc⟩
  · exact Ends.failed
  · exact Ends.no
  · have hb := hr _ rfl
    exact Ends.scan (fun _ => skipSpace_scans hb.le) skipSpace_text fun pc' ha => Ends.yes (hb.trans ha)

theorem At.word {input s : List UInt8} (hat : At input pc s) (h : isIdStart (s.headD 0) = true) :
    Behind input pc (pc.skip (1 + (s.tail.takeWhile isIdCont).length)) := by
  have hlen := hat.length
  cases s with
  | nil => cases h
  | cons c t =>
    have ht := (List.takeWhile_prefix isIdCont (l := t)).length_le
    rw [List.length_cons] at hlen
    refine ⟨Nat.lt_add_of_pos_right (by omega),?_⟩
    show pc.pos + (1 + (t.takeWhile isIdCont).length) ≤ input.length
    omega

theorem readId_past (hle : pc.pos ≤ E.input.length) : Ends (Past E pc) (readId E pc) := by
  refine Ends.scan (fun _ => Scans.rest hle) rest_text fun s hat => Ends.ite (fun _ => Ends.no) fun h => ?_
  have hb := hat.word (by simpa using h)
  refine Ends.after (Quiet.findId _) fun o => ?_
  cases o with
  | some id =>
    exact Ends.after Quiet.node fun pn => Ends.after (Quiet.note trivial) fun _ => Ends.after Quiet.updNode fun _ => Ends.yes hb
  | none =>
    refine Ends.after (Quiet.pegNodeNew E _ _) fun o => ?_
    cases o with
    | none => exact Ends.after Quiet.setErr fun _ => Ends.failed
    | some id =>
      refine Ends.after Quiet.node fun pn => Ends.after (Quiet.copyStr E _ _) fun r => Ends.after Quiet.updNode fun _ => Ends.ite
          (fun _ => ?_) fun _ => ?_
      · exact Ends.after Quiet.updNode fun _ => Ends.yes hb
      · exact Ends.after Quiet.setErr fun _ => Ends.after (Quiet.pegNodeFree _ _) fun _ => Ends.failed

theorem parseId_past (hle : pc.pos ≤ E.input.length) : Ends (Past E pc) (parseId E pc) := spaced_past (readId_past hle)

theorem parseIdAndNotArrow_past (hle : pc.pos ≤ E.input.length) : Ends (Past E pc) (parseIdAndNotArrow E pc) := by
  refine (parseId_past hle).bind fun r hr => ?_
  rcases r with e | _ | ⟨id,npc⟩
  · exact Ends.failed
  · exact Ends.no
  · have hb := hr _ rfl
    refine Ends.scan (fun _ => stringMatch_scans hb.le _) (stringMatch_text _) fun o _ => ?_
    cases o with
    | none => exact Ends.yes hb
    | some npc' => exact Ends.after (Quiet.pegNodeFree _ _) fun _ => Ends.no

variable (hfuel : E.input.length < E.fuel)
include hfuel

theorem readLiteral_past (hle : pc.pos ≤ E.input.length) : Ends (Past E pc) (readLiteral E pc) := by
  refine Ends.scan (fun _ => Scans.rest hle) rest_text fun s hat => Ends.ite (fun _ => Ends.no) fun h => ?_
  obtain ⟨q,t,rfl,hq⟩ : ∃ q t, s = q :: t ∧ IsQuote q := by
    rw [not_and_or,not_not,not_not] at h
    cases s with
    | nil => rcases h with h | h <;> cases h
    | cons q t => exact ⟨q,t,rfl,h⟩
  have hlen := hat.length
  rw [List.length_cons] at hlen
  obtain ⟨hyes,hno⟩ := literalLen_run hq hat.tail le_rfl (f := E.fuel) (by omega) 0
  obtain ⟨pc',hat',hbytes⟩ := literalBytes_run (q := q) hat.tail le_rfl
  have hof : ∀ {γ : Type} {n : Scan γ} {c : γ}, (n ()).result = .ok (c,()) → ∀ reads : Prop, Scans reads n () fun d _ => d = c :=
    fun h _ => (Run.of_ok h).mono fun _ _ hd => hd.1
  by_cases hacc : ∃ n, charOf (scanFrom q t.length t).2 = some (q,n)
  · refine Ends.scan (hof (hyes hacc)) (literalLen_text _ _ _ _) fun r hr => ?_
    subst hr
    refine Ends.after (Quiet.pegNodeNew E _ _) fun o => ?_
    cases o with
    | none => exact Ends.after Quiet.setErr fun _ => Ends.failed
    | some nn =>
      refine Ends.after (Quiet.malloc E) fun o => ?_
      cases o with
      | none =>
        exact Ends.after Quiet.setErr fun _ => Ends.after (Quiet.note trivial) fun _ => Ends.after
            (Quiet.pegNodeFree _ _) fun _ => Ends.failed
      | some id =>
        dsimp only
        rw [Nat.zero_add,Nat.add_sub_cancel]
        refine Ends.scan (hof hbytes) (literalBytes_text _ _) fun r hr => Ends.after Quiet.updNode fun _ => Ends.yes ?_
        subst hr
        obtain ⟨n,hn⟩ := hacc
        have hlen' := hat'.length
        have hstop := scanFrom_le q t.length t
        have hpos := (charOf_le hn).1.trans (charOf_le hn).2
        exact ⟨show pc.pos < pc'.pos + 1 by omega,show pc'.pos + 1 ≤ _ by omega⟩
  · obtain ⟨e,he⟩ := hno fun n hn => hacc ⟨n,hn⟩
    refine Ends.scan (hof he) (literalLen_text _ _ _ _) fun r hr => ?_
    subst hr
    exact Ends.after Quiet.setBad fun _ => Ends.failed

theorem parseLiteral_past (hle : pc.pos ≤ E.input.length) : Ends (Past E pc) (parseLiteral E pc) := spaced_past (readLiteral_past hfuel hle)

theorem readClass_past (hle : pc.pos ≤ E.input.length) : Ends (Past E pc) (readClass E pc) := by
  refine Ends.scan (fun _ => Scans.rest hle) rest_text fun s hat => Ends.ite (fun _ => Ends.no) fun hc => ?_
  have hb := hat.skip (fun h0 => hc (by rw [h0]; decide))
  refine Ends.after (Quiet.pegNodeNew E _ _) fun o => ?_
  cases o with
  | none => exact Ends.after Quiet.setErr fun _ => Ends.failed
  | some nn =>
    refine Ends.after (Quiet.malloc E) fun o => ?_
    cases o with
    | none =>
      exact Ends.after (Quiet.note trivial) fun _ => Ends.after (Quiet.pegNodeFree _ _) fun _ =>
          Ends.after Quiet.setErr fun _ => Ends.failed
    | some id =>
      have hchars : ∀ reads : Prop, Scans reads (classChars E.input (s.headD 0) E.fuel pc) () fun r _ =>
          ∀ x, r = .yes x → Ahead E.input pc x.2 ∧ (s.headD 0 = 46 → x.2 = pc) ∧
            (s.headD 0 ≠ 46 → Behind E.input pc x.2 ∧ (E.input.drop x.2.pos).headD 0 ∈ [93,0]) := fun reads => by
        rw [classChars]
        split
        · rename_i h46
          exact Run.pure fun x hx => by
            cases hx
            exact ⟨⟨le_rfl,hle⟩,fun _ => rfl,fun h => absurd h46 h⟩
        · rename_i h46
          exact (classSet_scans E.fuel _ _ hb.le (by omega)).mono fun r _ hr x hx =>
            ⟨hb.ahead.trans (hr x hx).1,fun h => absurd h h46,fun _ => ⟨hb.trans (hr x hx).1,(hr x hx).2⟩⟩
      refine Ends.scan hchars (classChars_text _ _) fun r hr => ?_
      rcases r with e | _ | ⟨cset,npc⟩
      · exact Ends.after Quiet.setBad fun _ => Ends.after (Quiet.note trivial) fun _ => Ends.failed
      · exact Ends.failed
      · obtain ⟨ha,hdot,hset⟩ := hr _ rfl
        refine Ends.scan (fun _ => Scans.rest ha.le) rest_text fun t hat' => Ends.ite (fun _ => ?_) fun hend => ?_
        · exact Ends.after Quiet.setBad fun _ => Ends.after (Quiet.note trivial) fun _ => Ends.after (Quiet.free _) fun _ =>
            Ends.after (Quiet.pegNodeFree _ _) fun _ => Ends.failed
        · refine Ends.after Quiet.updNode fun _ => Ends.yes ?_
          by_cases h46 : s.headD 0 = 46
          · obtain rfl : npc = pc := hdot h46
            exact hb
          · have hne : t.headD 0 ≠ 0 := fun h0 => hend ⟨h46,h0⟩
            exact (hset h46).1.trans (hat'.skip hne).ahead

theorem parseClass_past (hle : pc.pos ≤ E.input.length) : Ends (Past E pc) (parseClass E pc) := spaced_past (readClass_past hfuel hle)

theorem parseCode_past (hle : pc.pos ≤ E.input.length) : Ends (fun x => Behind E.input pc x.2) (parseCode E pc) := by
  refine Ends.scan (fun _ => codeEnd_scans hfuel hle) (codeEnd_text _) fun r hr => ?_
  rcases r with e | _ | npc
  · exact Ends.after Quiet.setBad fun _ => Ends.failed
  · exact Ends.no
  · have hb := hr npc rfl
    refine Ends.scan (fun _ => Scans.rest hle) rest_text fun s _ => Ends.after (Quiet.copyStr E _ _) fun r => Ends.ite
        (fun _ => ?_) fun _ => Ends.failed
    exact Ends.scan (fun _ => skipSpace_scans hb.le) skipSpace_text fun pc' ha => Ends.yes (hb.trans ha)

omit hfuel in
theorem parseActionLabel_past (hle : pc.pos ≤ E.input.length) : Ends (fun x => Behind E.input pc x.2) (parseActionLabel E pc) := by
  refine Ends.scan (fun _ => stringMatch_scans hle _) (stringMatch_text _) fun o ho => ?_
  cases o with
  | none => exact Ends.no
  | some npc =>
    have ha := ho npc rfl
    refine Ends.scan (fun _ => Scans.rest ha.le) rest_text fun s hat => Ends.ite (fun _ => Ends.no) fun h => ?_
    have hb := hat.word (by simpa using h)
    have hpast : Behind E.input pc (npc.skip (1 + (s.tail.takeWhile isIdCont).length)) :=
      ⟨(Nat.lt_add_of_pos_right (by decide)).trans_le (ha.ge.trans hb.gt.le),hb.le⟩
    refine Ends.after (Quiet.copyStr E _ _) fun r => Ends.ite (fun _ => ?_) fun _ => Ends.failed
    exact Ends.scan (fun _ => skipSpace_scans hb.le) skipSpace_text fun pc' ha' => Ends.yes (hpast.trans ha')

theorem parseAction_past (hle : pc.pos ≤ E.input.length) : Ends (fun x => Ahead E.input pc x.2.2) (parseAction E pc) := by
  refine (parseCode_past hfuel hle).bind fun r hr => ?_
  rcases r with e | _ | ⟨r,npc⟩
  · exact Ends.failed
  · refine (parseActionLabel_past hle).bind fun r hr => ?_
    rcases r with e | _ | ⟨r,npc⟩
    · exact Ends.failed
    · exact Ends.yes ⟨le_rfl,hle⟩
    · exact Ends.yes (hr _ rfl).ahead
  · exact Ends.yes (hr _ rfl).ahead

omit hfuel in
theorem matchOne_scans {α : Type} {reads : Prop} (l : List (UInt8 × α)) (a : α) (hle : pc.pos ≤ E.input.length) :
    Scans reads (matchOne E l a pc) () fun x _ => Ahead E.input pc x.2 := by
  induction l with
  | nil => exact Run.pure ⟨le_rfl,hle⟩
  | cons x l ih =>
    refine Run.bind (stringMatch_scans hle _) fun o _ ho => ?_
    cases o with
    | none => exact ih
    | some npc => exact Run.pure ⟨(Nat.le_add_right _ _).trans (ho npc rfl).ge,(ho npc rfl).le⟩

omit hfuel in
theorem matchOne_text {α : Type} (l : List (UInt8 × α)) (a : α) (pc : PegCursor) : OfText (matchOne E l a pc) := by
  induction l with
  | nil => exact OfText.pure
  | cons x l ih =>
    refine (stringMatch_text _).bind fun o => ?_
    cases o with
    | none => exact ih
    | some npc => exact OfText.pure

omit hfuel in
theorem firstOf_ends {α : Type} {R : α → Prop} (l : List (PegM (Ret Unit α))) (h : ∀ m ∈ l, Ends R m) : Ends R (firstOf l) := by
  induction l with
  | nil => exact Ends.no
  | cons m l ih =>
    refine (h m List.mem_cons_self).bind fun r hr => ?_
    rcases r with e | _ | x
    · exact Ends.failed
    · exact ih fun m' hm' => h m' (List.mem_cons_of_mem _ hm')
    · exact Ends.yes (hr x rfl)

section Nested

variable {parseExpr : PegCursor → PegM Found} (hrec : ∀ npc, Behind E.input pc npc → Ends (NotBefore E npc) (parseExpr npc))
include hrec

omit hfuel in
theorem parseParenExpr_past {npc : PegCursor} (ha : Ahead E.input pc npc) : Ends (Past E npc) (parseParenExpr E parseExpr npc) := by
  refine Ends.scan (fun _ => stringMatch_scans ha.le _) (stringMatch_text _) fun o ho => ?_
  cases o with
  | none => exact Ends.no
  | some npc1 =>
    have hb : Behind E.input npc npc1 := ⟨(Nat.lt_add_of_pos_right (by decide)).trans_le (ho npc1 rfl).ge,(ho npc1 rfl).le⟩
    refine (hrec npc1 (ha.behind hb)).bind fun r hr => ?_
    rcases r with e | _ | ⟨expr,npc2⟩
    · exact Ends.failed
    · exact Ends.after (Quiet.pegNodeFree _ _) fun _ => Ends.after Quiet.setBad fun _ => Ends.failed
    · have ha2 := hr _ rfl
      refine Ends.scan (fun _ => stringMatch_scans ha2.le _) (stringMatch_text _) fun o ho => ?_
      cases o with
      | none => exact Ends.after (Quiet.pegNodeFree _ _) fun _ => Ends.after Quiet.setBad fun _ => Ends.failed
      | some npc3 => exact Ends.yes (hb.trans ⟨ha2.ge.trans ((Nat.le_add_right _ _).trans (ho npc3 rfl).ge),(ho npc3 rfl).le⟩)

theorem parsePrimary_past {npc : PegCursor} (ha : Ahead E.input pc npc) : Ends (Past E npc) (parsePrimary E parseExpr npc) := by
  refine Ends.scan (fun _ => matchOne_scans _ _ ha.le) (matchOne_text _ _ _) fun x ha1 => ?_
  obtain ⟨pfx,npc1⟩ := x
  dsimp only at ha1 ⊢
  have hfirst : Ends (Past E npc1) (firstOf [parseIdAndNotArrow E npc1,parseParenExpr E parseExpr npc1,parseLiteral E npc1,parseClass E npc1]) := by
    refine firstOf_ends _ fun m hm => ?_
    simp only [List.mem_cons, List.not_mem_nil, or_false] at hm
    rcases hm with rfl | rfl | rfl | rfl
    · exact parseIdAndNotArrow_past ha1.le
    · exact parseParenExpr_past hrec (ha.trans ha1)
    · exact parseLiteral_past hfuel ha1.le
    · exact parseClass_past hfuel ha1.le
  refine hfirst.bind fun r hr => ?_
  rcases r with e | _ | ⟨mtch,npc2⟩
  · exact Ends.after (Quiet.pegNodeFree _ _) fun _ => Ends.failed
  · exact Ends.ite (fun _ => Ends.no) fun _ => Ends.after Quiet.setBad fun _ => Ends.failed
  · have hb := hr _ rfl
    refine Ends.after (Quiet.pegNodeNew E _ _) fun o => ?_
    cases o with
    | none => exact Ends.after Quiet.setErr fun _ => Ends.after (Quiet.pegNodeFree _ _) fun _ => Ends.failed
    | some pri =>
      refine Ends.scan (fun _ => matchOne_scans _ _ hb.le) (matchOne_text _ _ _) fun y ha3 => ?_
      obtain ⟨sfx,npc3⟩ := y
      dsimp only at ha3 ⊢
      refine (parseAction_past hfuel ha3.le).bind fun r hr => ?_
      rcases r with e | _ | ⟨action,r,npc4⟩
      · exact Ends.after (Quiet.pegNodeFree _ _) fun _ => Ends.failed
      · exact Ends.after (Quiet.pegNodeFree _ _) fun _ => Ends.failed
      · exact Ends.after Quiet.updNode fun _ => Ends.yes ((ha1.behind hb).trans (ha3.trans (hr _ rfl)))

theorem seqLoop_past (seq : ℕ) (f pri : ℕ) {npc : PegCursor} (ha : Ahead E.input pc npc) (hf : E.input.length < npc.pos + f) :
    Ends (NotBefore E npc) (seqLoop E parseExpr seq f pri npc) := by
  induction f generalizing pri npc with
  | zero => exact absurd ha.le (by omega)
  | succ f ih =>
    refine (parsePrimary_past hfuel hrec ha).bind fun r hr => ?_
    rcases r with e | _ | ⟨nn,npc1⟩
    · exact Ends.after (Quiet.pegNodeFree _ _) fun _ => Ends.failed
    · exact Ends.yes ⟨le_rfl,ha.le⟩
    · have hb : Behind E.input npc npc1 := hr _ rfl
      have hgt := hb.gt
      refine Ends.after Quiet.updNode fun _ => (ih nn (ha.trans hb.ahead) (by omega)).mono fun x hx => hb.ahead.trans hx

theorem parseSeq_past {npc : PegCursor} (ha : Ahead E.input pc npc) : Ends (NotBefore E npc) (parseSeq E parseExpr npc) := by
  refine Ends.after (Quiet.pegNodeNew E _ _) fun o => ?_
  cases o with
  | none => exact Ends.after Quiet.setErr fun _ => Ends.failed
  | some seq =>
    refine (parsePrimary_past hfuel hrec ha).bind fun r hr => ?_
    rcases r with e | _ | ⟨pri,npc1⟩
    · exact Ends.after (Quiet.pegNodeFree _ _) fun _ => Ends.failed
    · exact Ends.after (Quiet.note trivial) fun _ => Ends.after Quiet.updNode fun _ => Ends.yes ⟨le_rfl,ha.le⟩
    · have hb : Behind E.input npc npc1 := hr _ rfl
      exact Ends.after Quiet.updNode fun _ => (seqLoop_past hfuel hrec seq _ pri (ha.trans hb.ahead) (by omega)).mono fun x hx =>
          hb.ahead.trans hx

theorem exprLoop_past (expr : ℕ) (f snn : ℕ) {npc : PegCursor} (ha : Ahead E.input pc npc) (hf : E.input.length < npc.pos + f) :
    Ends (NotBefore E npc) (exprLoop E parseExpr expr f snn npc) := by
  induction f generalizing snn npc with
  | zero => exact absurd ha.le (by omega)
  | succ f ih =>
    refine Ends.scan (fun _ => stringMatch_scans ha.le _) (stringMatch_text _) fun o ho => ?_
    cases o with
    | none => exact Ends.yes ⟨le_rfl,ha.le⟩
    | some npc1 =>
      have hb : Behind E.input npc npc1 := ⟨(Nat.lt_add_of_pos_right (by decide)).trans_le (ho npc1 rfl).ge,(ho npc1 rfl).le⟩
      refine (parseSeq_past hfuel hrec (ha.trans hb.ahead)).bind fun r hr => ?_
      rcases r with e | _ | ⟨nn,npc2⟩
      · exact Ends.after Quiet.modify fun _ => Ends.after (Quiet.pegNodeFree _ _) fun _ => Ends.failed
      · exact Ends.after Quiet.setBad fun _ => Ends.after (Quiet.pegNodeFree _ _) fun _ => Ends.failed
      · have ha2 : Behind E.input npc npc2 := hb.trans (hr _ rfl)
        have hgt := ha2.gt
        exact Ends.after Quiet.updNode fun _ => (ih nn (ha.trans ha2.ahead) (by omega)).mono fun x hx => ha2.ahead.trans hx

end Nested

theorem parseExpr_past (d : ℕ) {pc : PegCursor} (hle : pc.pos ≤ E.input.length) (hd : E.input.length < pc.pos + d) :
    Ends (NotBefore E pc) (parseExpr E d pc) := by
  induction d generalizing pc with
  | zero => omega
  | succ d ih =>
    have hrec : ∀ npc, Behind E.input pc npc → Ends (NotBefore E npc) (parseExpr E d npc) := fun npc hb =>
      ih hb.le (by have := hb.gt; omega)
    refine (parseSeq_past hfuel hrec ⟨le_rfl,hle⟩).bind fun r hr => ?_
    rcases r with e | _ | ⟨expr,npc⟩
    · exact Ends.failed
    · exact Ends.no
    · have ha : Ahead E.input pc npc := hr _ rfl
      exact (exprLoop_past hfuel hrec expr _ expr ha (by omega)).mono fun x hx => ha.trans hx

theorem parseDef_past (hle : pc.pos ≤ E.input.length) : Ends (Past E pc) (parseDef E pc) := by
  refine (parseId_past hle).bind fun r hr => ?_
  rcases r with e | _ | ⟨id,npc⟩
  · exact Ends.failed
  · exact Ends.no
  have hb : Behind E.input pc npc := hr _ rfl
  refine Ends.after Quiet.node fun pn => Ends.ite (fun _ => Ends.after Quiet.setBad fun _ => Ends.failed) fun _ => ?_
  refine Ends.scan (fun _ => stringMatch_scans hb.le _) (stringMatch_text _) fun o ho => ?_
  cases o with
  | none => exact Ends.after (Quiet.pegNodeFree _ _) fun _ => Ends.no
  | some npc1 =>
    have hb1 : Behind E.input pc npc1 := hb.trans ⟨(Nat.le_add_right _ _).trans (ho npc1 rfl).ge,(ho npc1 rfl).le⟩
    refine (parseExpr_past hfuel E.fuel hb1.le (by omega)).bind fun r hr => ?_
    rcases r with e | _ | ⟨expr,npc2⟩
    · exact Ends.after Quiet.modify fun _ => Ends.after (Quiet.pegNodeFree _ _) fun _ => Ends.failed
    · exact Ends.after Quiet.setBad fun _ => Ends.after (Quiet.pegNodeFree _ _) fun _ => Ends.failed
    · refine Ends.after (Quiet.pegNodeNew E _ _) fun o => ?_
      cases o with
      | none =>
        exact Ends.after (Quiet.pegNodeFree _ _) fun _ => Ends.after (Quiet.pegNodeFree _ _) fun _ =>
            Ends.after Quiet.setErr fun _ => Ends.failed
      | some dn => exact Ends.after Quiet.updNode fun _ => Ends.after Quiet.updNode fun _ => Ends.yes (hb1.trans (hr (expr,npc2) rfl))

theorem defsLoop_quiet (f : ℕ) {pc : PegCursor} (hle : pc.pos ≤ E.input.length) (hf : E.input.length < pc.pos + f) :
    Quiet (defsLoop E f pc) := by
  induction f generalizing pc with
  | zero => omega
  | succ f ih =>
    rw [defsLoop]
    refine Quiet.ite ((parseDef_past hfuel hle).then fun r hr => ?_) Quiet.pure
    rcases r with e | _ | ⟨id,npc⟩
    · exact Quiet.pure
    · exact Quiet.pure
    · have hb : Behind E.input pc npc := hr _ rfl
      exact ih hb.le (by have := hb.gt; omega)

omit hfuel in
theorem Quiet.behindSpace {f : PegCursor → PegM α} (hle : pc.pos ≤ E.input.length) (hf : ∀ c, Ahead E.input pc c → Quiet (f c)) :
    Quiet (lift (skipSpace E.input pc) >>= f) := by
  have hspace : ∀ reads : Prop, Scans reads (skipSpace E.input pc) () fun c _ => Ahead E.input pc c := fun _ => skipSpace_scans hle
  refine ⟨fun reads s => Run.bind (Run.lift (P := fun c _ => Ahead E.input pc c) (hspace reads)) fun c t ha => (hf c ha).scans reads t,?_⟩
  exact (Stops.lift skipSpace_text.stops).bind_of (P := fun c => Ahead E.input pc c)
    (fun s hev => Run.lift (P := fun c _ => Ahead E.input pc c) (hspace True) fun w hw _ => hev w hw) fun c ha => (hf c ha).stops

theorem pegParse_quiet : Quiet (pegParse E) := by
  have hfree : ∀ v : ℤ, Quiet (do pegFreeNodes E; return v) := fun v => (Quiet.pegFreeNodes E).bind fun _ => Quiet.pure
  refine Quiet.behindSpace (Nat.zero_le _) fun pc ha => (parseDef_past hfuel ha.le).then fun r hr => ?_
  rcases r with e | _ | ⟨start,npc⟩
  · exact hfree (-1)
  · exact hfree 0
  · have hb : Behind E.input pc npc := hr _ rfl
    refine Quiet.modifyPeg.bind fun _ => (defsLoop_quiet hfuel E.fuel hb.le (by omega)).bind fun o => ?_
    cases o with
    | none => exact hfree (-1)
    | some pc' =>
      exact (Quiet.get.bind fun _ => Quiet.checkIds E _).bind fun b => Quiet.ite (Quiet.modify.bind fun _ => Quiet.pure) (hfree (-1))

end Progress

end Catlib.Peg.Parser
