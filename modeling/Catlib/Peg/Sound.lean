import Catlib.Peg.Cpg

/-! # The matcher computes the meaning of the grammar

A node table is read as a parsing expression grammar whose nonterminals are the nodes.
Whenever a matching function returns, it has found what the big-step meaning says of the
input at the cursor; on failure the cursor is where it was.
-/
namespace Catlib.Peg

variable {σ : Type} {g : PegGrammar σ} {w : List UInt8} {s s' : CpgState σ}

/-! ## The buffer -/

/-- The state stands in the input `w`, a prefix of which is in the buffer. -/
structure Buffered (w : List UInt8) (s : CpgState σ) : Prop where
  pos : 1 ≤ s.cur.i
  le : s.cur.i ≤ s.readidx
  room : s.readidx ≤ s.buflen
  small : s.readidx ≤ w.length + 1
  data : ∀ j, 1 ≤ j → j < s.readidx → w[j - 1]? = some (s.buf j)
  rest : s.inp = w.drop (s.readidx - 1)
  eof : s.eof = uintMod - 1 ∨ s.eof = w.length + 1 ∧ s.readidx = w.length + 1

/-- The input from the cursor on. -/
def ahead (w : List UInt8) (s : CpgState σ) : List UInt8 := w.drop (s.cur.i - 1)

theorem buffered_init (w : List UInt8) (a : σ) : Buffered w (cpgInit w a) :=
  ⟨le_rfl,le_rfl,by simp [cpgInit],Nat.le_add_left 1 _,fun j h1 h2 => absurd h1 (not_le.mpr h2),rfl,Or.inl rfl⟩

/-- The buffer also cannot grow to the length 2³²: the input is short, or the buffer has
grown page by page. -/
structure Standing (w : List UInt8) (s : CpgState σ) : Prop extends Buffered w s where
  paged : w.length < 2 ^ 31 ∨ 4096 ∣ s.buflen ∧ s.buflen < uintMod

theorem standing_init (w : List UInt8) (a : σ) : Standing w (cpgInit w a) :=
  ⟨buffered_init w a,Or.inr ⟨dvd_refl 4096,show 4096 < uintMod by decide⟩⟩

theorem Standing.small' (hb : Standing w s) : s.readidx < uintMod - 1 := by
  have h1 := hb.small
  have h2 := hb.room
  have h3 := hb.paged
  unfold uintMod at *
  omega

theorem Standing.setCur (hb : Standing w s) {c : Cursor} (h1 : 1 ≤ c.i) (h2 : c.i ≤ s.readidx) :
    Standing w { s with cur := c } := ⟨⟨h1,h2,hb.room,hb.small,hb.data,hb.rest,hb.eof⟩,hb.paged⟩

theorem Standing.setAux (hb : Standing w s) (a : σ) : Standing w { s with aux := a } :=
  ⟨⟨hb.pos,hb.le,hb.room,hb.small,hb.data,hb.rest,hb.eof⟩,hb.paged⟩

theorem stepOver_spec (hb : Standing w s) (hlt : s.cur.i < s.readidx) :
    stepOver s = some (s.next,some (s.buf s.cur.i)) ∧ Standing w s.next ∧ ahead w s = s.buf s.cur.i :: ahead w s.next := by
  have hpos := hb.pos
  have hroom := hb.room
  obtain ⟨hlen,hget⟩ := List.getElem?_eq_some_iff.mp (hb.data s.cur.i hpos hlt)
  refine ⟨if_neg (by omega),hb.setCur (Nat.le_add_left 1 _) hlt,?_⟩
  rw [ahead,ahead,List.drop_eq_getElem_cons hlen,hget]
  congr 2
  change s.cur.i - 1 + 1 = s.cur.i + 1 - 1
  omega

theorem growBuf_spec (hb : Standing w s) (hw : w.length < 2 ^ 31 ∨ s.cur.i < uintMod - 4096) :
    ∃ s', growBuf s = some s' ∧ Standing w s' ∧ s'.cur = s.cur ∧ s'.readidx = s.readidx ∧ s'.eof = s.eof ∧
      s'.cur.i < s'.buflen := by
  have hle := hb.le
  have hroom := hb.room
  have hsmall := hb.small
  by_cases h : s.buflen ≤ s.cur.i
  · have he : s.cur.i = s.buflen := by omega
    have hmod : s.grow.buflen = s.buflen + 4096 := Nat.mod_eq_of_lt (by unfold uintMod at *; omega)
    refine ⟨s.grow,by rw [growBuf,if_pos h,if_pos he],⟨⟨hb.pos,hb.le,?_,hb.small,fun j h1 h2 => ?_,hb.rest,hb.eof⟩,?_⟩,
      rfl,rfl,rfl,?_⟩
    · rw [hmod]
      exact hroom.trans (Nat.le_add_right _ _)
    · rw [hb.data j h1 h2]
      have hj : j < s.readidx := h2
      exact congrArg some (if_neg (by omega)).symm
    · rw [hmod]
      refine hb.paged.imp_right fun ⟨h1,h2⟩ => ⟨Nat.dvd_add h1 (dvd_refl _),?_⟩
      unfold uintMod at *
      omega
    · rw [hmod]
      change s.cur.i < _
      omega
  · exact ⟨s,by rw [growBuf,if_neg h],hb,rfl,rfl,rfl,not_le.mp h⟩

/-- The call has read up to the end, or has left the end mark alone. -/
def Seen (w : List UInt8) (s s' : CpgState σ) (b : Bool) : Prop := s'.eof = if b then w.length + 1 else s.eof

theorem seen_refl : Seen w s s false := rfl

theorem Seen.trans {t : CpgState σ} {b b' : Bool} (h : Seen w s t b) (h' : Seen w t s' b') : Seen w s s' (b || b') := by
  cases b <;> cases b' <;> simp_all [Seen]

/-- What `cpg_getc` does: at the end of the input it leaves the cursor alone, elsewhere it
delivers the next character. -/
structure Got (w : List UInt8) (s s' : CpgState σ) (c : Option UInt8) : Prop where
  buffered : Standing w s'
  grown : s.readidx ≤ s'.readidx
  seen : Seen w s s' c.isNone
  stop : c = none → ahead w s = [] ∧ s'.cur = s.cur
  char : ∀ b, c = some b → ahead w s = b :: ahead w s' ∧ s'.cur.i = s.cur.i + 1

theorem ahead_end (h : w.length < s.cur.i) : ahead w s = [] := List.drop_eq_nil_of_le (by omega)

theorem Standing.append {c : UInt8} {inp : List UInt8} (hb : Standing w s) (hlt : s.readidx < s.buflen)
    (hi : s.inp = c :: inp) : Standing w (s.append c inp) := by
  have hpos := hb.pos
  have hle := hb.le
  have hdrop : w.drop (s.readidx - 1) = c :: inp := hb.rest.symm.trans hi
  have hlen : s.readidx - 1 < w.length := by
    by_contra hge
    rw [List.drop_eq_nil_of_le (not_lt.mp hge)] at hdrop
    cases hdrop
  rw [List.drop_eq_getElem_cons hlen] at hdrop
  obtain ⟨hget,hrest⟩ := List.cons.inj hdrop
  refine ⟨⟨hpos,hle.trans (Nat.le_succ _),hlt,?_,fun j h1 h2 => ?_,?_,hb.eof.imp_right fun h => ?_⟩,hb.paged⟩
  · change s.readidx + 1 ≤ _
    omega
  · change j < s.readidx + 1 at h2
    change w[j - 1]? = some (if j = s.readidx then c else s.buf j)
    by_cases hj : j = s.readidx
    · rw [if_pos hj,hj]
      exact List.getElem?_eq_some_iff.mpr ⟨hlen,hget⟩
    · rw [if_neg hj]
      exact hb.data j h1 (by omega)
  · change inp = w.drop (s.readidx + 1 - 1)
    rw [← hrest]
    congr 1
    omega
  · omega

theorem fillBuf_spec (hb : Standing w s) (hlt : s.cur.i < s.buflen) (hr : s.readidx ≤ s.cur.i) :
    ∃ s' c, fillBuf s = some (s',c) ∧ Got w s s' c := by
  have he : s.cur.i = s.readidx := le_antisymm hb.le hr
  have hpos := hb.pos
  have hfill : ¬(s.cur.i ≠ s.readidx ∨ s.buflen ≤ s.readidx) := by omega
  cases hi : s.inp with
  | nil =>
    have hlen : w.length < s.cur.i := by
      have hnil := hb.rest.symm.trans hi
      rw [List.drop_eq_nil_iff] at hnil
      omega
    have hsmall := hb.small
    have heof : s.cur.i = w.length + 1 := by omega
    exact ⟨{ s with eof := s.cur.i },none,by rw [fillBuf,if_neg hfill,hi],
      ⟨⟨hb.pos,hb.le,hb.room,hb.small,hb.data,hb.rest,Or.inr ⟨heof,he.symm.trans heof⟩⟩,hb.paged⟩,le_rfl,heof,
      fun _ => ⟨ahead_end hlen,rfl⟩,nofun⟩
  | cons c inp =>
    have hb2 := hb.append (he ▸ hlt) hi
    obtain ⟨hs,hbs,hah⟩ := stepOver_spec hb2 (show s.cur.i < s.readidx + 1 by omega)
    have hbuf : (s.append c inp).buf s.cur.i = c := if_pos he
    refine ⟨(s.append c inp).next,some c,?_,hbs,Nat.le_succ _,rfl,nofun,?_⟩
    · rw [fillBuf,if_neg hfill,hi]
      exact hs.trans (by rw [show (s.append c inp).cur = s.cur from rfl,hbuf])
    · rintro b ⟨⟩
      exact ⟨hah.trans (by rw [show (s.append c inp).cur = s.cur from rfl,hbuf]),rfl⟩

theorem cpgGetc_end (hb : Standing w s) (heof : s.eof ≤ s.cur.i) : cpgGetc s = some (s,none) ∧ Got w s s none := by
  have hle := hb.le
  have hsmall := hb.small
  rcases hb.eof with he | ⟨he,-⟩
  · have := hb.small'
    omega
  · exact ⟨by rw [cpgGetc,if_pos heof,if_pos (by omega)],hb,le_rfl,he,fun _ => ⟨ahead_end (by omega),rfl⟩,nofun⟩

theorem cpgGetc_total (hb : Standing w s) (hw : w.length < 2 ^ 31 ∨ s.cur.i < uintMod - 4096) :
    ∃ s' c, cpgGetc s = some (s',c) ∧ Got w s s' c := by
  by_cases heof : s.eof ≤ s.cur.i
  · exact ⟨s,none,cpgGetc_end hb heof⟩
  obtain ⟨t,ht,hbt,hcur,hread,hte,hlt⟩ := growBuf_spec hb hw
  have hah : ahead w t = ahead w s := by rw [ahead,ahead,hcur]
  have hcall : cpgGetc s = if t.readidx ≤ t.cur.i then fillBuf t else stepOver t := by
    rw [cpgGetc,if_neg heof,ht]
    rfl
  rw [hcall]
  by_cases hr : t.readidx ≤ t.cur.i
  · obtain ⟨s',c,hf,h1,h2,h3,h4,h5⟩ := fillBuf_spec hbt hlt hr
    rw [Seen,hte] at h3
    rw [hread,hah,hcur] at *
    exact ⟨s',c,by rw [if_pos hr,hf],h1,h2,h3,h4,h5⟩
  · obtain ⟨hs,hbs,hah'⟩ := stepOver_spec hbt (not_le.mp hr)
    refine ⟨t.next,some (t.buf t.cur.i),by rw [if_neg hr,hs],hbs,hread.ge,hte,nofun,?_⟩
    rintro b ⟨⟩
    exact ⟨hah ▸ hah',congrArg (· + 1) (congrArg Cursor.i hcur)⟩

theorem cpgGetc_spec {c : Option UInt8} (hb : Standing w s) (h : cpgGetc s = some (s',c)) : Got w s s' c := by
  by_cases heof : s.eof ≤ s.cur.i
  · obtain ⟨ht,hg⟩ := cpgGetc_end hb heof
    rw [h] at ht
    cases ht
    exact hg
  by_cases hw : w.length < 2 ^ 31 ∨ s.cur.i < uintMod - 4096
  · obtain ⟨t,d,ht,hg⟩ := cpgGetc_total hb hw
    rw [h] at ht
    cases ht
    exact hg
  · obtain ⟨h1,h2⟩ := hb.paged.resolve_left fun h => hw (Or.inl h)
    have hle := hb.le
    have hroom := hb.room
    have hi : s.cur.i = s.buflen ∧ s.buflen + 4096 = uintMod := by
      unfold uintMod at *
      omega
    have hfull : s.grow.buflen = 0 := by
      change (s.buflen + 4096) % uintMod = 0
      rw [hi.2,Nat.mod_self]
    rw [cpgGetc,if_neg heof,growBuf,if_pos hi.1.ge,if_pos hi.1] at h
    simp only [Option.bind_eq_bind, Option.bind_some] at h
    rw [if_pos (show s.grow.readidx ≤ s.grow.cur.i from hroom.trans hi.1.ge),fillBuf,
      if_pos (Or.inr (by rw [hfull]; exact Nat.zero_le _))] at h
    cases h

/-! ## The grammar of a node table -/

/-- The nonterminals: a list of alternatives, a sequence, the rest of a sequence, a primary
and an identifier. -/
inductive Sym where
  | expr (seq : ℤ)
  | seqn (seq : ℤ)
  | prims (pri : ℤ)
  | pri (pri : ℤ)
  | ident (id : ℤ)

/-- What a primary matches, by the type of the node. -/
def matchPexp (g : PegGrammar σ) (k : ℤ) : Pexp Sym UInt8 :=
  match g.node k with
  | some n =>
    match n.type with
    | .sequence => .nt (.expr k)
    | .identifier => .nt (.ident k)
    | .literal => .lit n.str
    | .cls => .cls (fun c => csetContains n.str c == some true)
    | _ => .fail
  | none => .fail

def suffixPexp (sfx : PegAttr) (e : Pexp Sym UInt8) : Pexp Sym UInt8 :=
  match sfx with
  | .question => .opt e
  | .star => .star e
  | .plus => .plus e
  | _ => e

def prefixPexp (pfx : PegAttr) (e : Pexp Sym UInt8) : Pexp Sym UInt8 :=
  match pfx with
  | .and => .ahead e
  | .not => .never e
  | _ => e

/-- The rules that a node table stands for. -/
def rules (g : PegGrammar σ) : Sym → Pexp Sym UInt8
  | .expr seq =>
    if seq < 0 then .fail
    else match g.node seq with
      | some n => .alt (.nt (.seqn seq)) (.nt (.expr n.next))
      | none => .fail
  | .seqn seq =>
    match g.node seq with
    | some n => .nt (.prims n.subnode)
    | none => .fail
  | .prims pri =>
    if pri < 0 then .eps
    else match g.node pri with
      | some n => .seq (.nt (.pri pri)) (.nt (.prims n.next))
      | none => .fail
  | .pri pri =>
    match g.node pri with
    | some n => prefixPexp n.pfx (suffixPexp n.sfx (matchPexp g n.subnode))
    | none => .fail
  | .ident id =>
    match g.node id with
    | some n =>
      if g.isToken n.subnode then .cls (fun c => (c.toNat : ℤ) = tokenId n.subnode)
      else match g.node n.subnode with
        | some d => .nt (.expr d.next)
        | none => .fail
    | none => .fail

/-- A matching function that returns has done what the expression says: it succeeded and
moved the cursor over what is consumed, or it failed and left the cursor alone; and the end
mark is set if it looked at the end. -/
structure Outcome (g : PegGrammar σ) (w : List UInt8) (e : Pexp Sym UInt8) (s : CpgState σ) (r : CpgState σ × ℤ) :
    Prop where
  buffered : Standing w r.1
  grown : s.readidx ≤ r.1.readidx
  meaning : ∃ b, Seen w s r.1 b ∧
    ((r.2 = 1 ∧ ∃ n, Trace (rules g) e (ahead w s) (some n) b ∧ r.1.cur.i = s.cur.i + n) ∨
      (r.2 = 0 ∧ Trace (rules g) e (ahead w s) none b ∧ r.1.cur = s.cur))

theorem ahead_add {n : ℕ} (hb : Standing w s) (h : s'.cur.i = s.cur.i + n) : ahead w s' = (ahead w s).drop n := by
  have := hb.pos
  rw [ahead,ahead,h,List.drop_drop]
  congr 1
  omega

theorem Outcome.nt {a : Sym} {r : CpgState σ × ℤ} (h : Outcome g w (rules g a) s r) : Outcome g w (.nt a) s r := by
  obtain ⟨b,hb,h1⟩ := h.meaning
  exact ⟨h.buffered,h.grown,b,hb,h1.imp (fun ⟨h1,n,h2,h3⟩ => ⟨h1,n,.nt h2,h3⟩) (fun ⟨h1,h2,h3⟩ => ⟨h1,.nt h2,h3⟩)⟩

theorem Outcome.failed {e : Pexp Sym UInt8} {rv : ℤ} {b : Bool} (hb : Standing w s) (hb' : Standing w s')
    (hg : s.readidx ≤ s'.readidx) (hs : Seen w s s' b) (hrv : rv = 0) (he : Trace (rules g) e (ahead w s) none b) :
    Outcome g w e s ({ s' with cur := s.cur },rv) :=
  ⟨hb'.setCur hb.pos (hb.le.trans hg),hg,b,hs,Or.inr ⟨hrv,he,rfl⟩⟩

/-! ## Terminals -/

section
variable (hb : Standing w s)
include hb

theorem cpgMatchToken_sound {id : ℤ} {n : PegNode σ} {r : CpgState σ × ℤ} (hn : g.node id = some n)
    (hr : cpgMatchToken g s id = some r) :
    Outcome g w (.cls (fun c => (c.toNat : ℤ) = tokenId n.subnode)) s r := by
  simp only [cpgMatchToken, Option.bind_eq_bind, Option.bind_eq_some_iff] at hr
  obtain ⟨m,hv,⟨s',c⟩,hc,hr⟩ := hr
  obtain ⟨hbs,hg,hs,hstop,hchar⟩ := cpgGetc_spec hb hc
  obtain rfl : m = n := by
    simp only [PegGrammar.valid, hn, Option.bind_eq_bind, Option.bind_some, Option.ite_none_right_eq_some,
      Option.some.injEq] at hv
    exact hv.2.symm
  cases c with
  | none =>
    cases hr
    exact .failed hb hbs hg hs rfl (by rw [(hstop rfl).1]; exact .clsEnd)
  | some c =>
    obtain ⟨ha,hi⟩ := hchar c rfl
    dsimp only at hr
    split at hr
    · rename_i h
      cases hr
      exact ⟨hbs,hg,false,hs,Or.inl ⟨rfl,1,by rw [ha]; exact .clsHit (by simpa using h),hi⟩⟩
    · rename_i h
      cases hr
      exact .failed hb hbs hg hs rfl (by rw [ha]; exact .clsMiss (by simpa using h))

theorem cpgMatchClass_sound {k : ℤ} {n : PegNode σ} {r : CpgState σ × ℤ} (hn : g.node k = some n)
    (hr : cpgMatchClass g s k = some r) : Outcome g w (.cls (fun c => csetContains n.str c == some true)) s r := by
  simp only [cpgMatchClass, Option.bind_eq_bind, Option.bind_eq_some_iff] at hr
  obtain ⟨m,hv,⟨s',c⟩,hc,hr⟩ := hr
  obtain ⟨hbs,hg,hs,hstop,hchar⟩ := cpgGetc_spec hb hc
  obtain rfl : m = n := by
    simp only [PegGrammar.valid, hn, Option.bind_eq_bind, Option.bind_some, Option.ite_none_right_eq_some,
      Option.some.injEq] at hv
    exact hv.2.symm
  cases c with
  | none =>
    cases hr
    exact .failed hb hbs hg hs rfl (by rw [(hstop rfl).1]; exact .clsEnd)
  | some c =>
    obtain ⟨ha,hi⟩ := hchar c rfl
    simp only [Option.bind_eq_some_iff] at hr
    obtain ⟨b,hset,hr⟩ := hr
    cases b with
    | true =>
      simp only [if_true] at hr
      cases hr
      exact ⟨hbs,hg,false,hs,Or.inl ⟨rfl,1,by rw [ha]; exact .clsHit (by simp [hset]),hi⟩⟩
    | false =>
      simp only [Bool.false_eq_true, if_false] at hr
      cases hr
      exact .failed hb hbs hg hs rfl (by rw [ha]; exact .clsMiss (by simp [hset]))

theorem literalLoop_spec {l : List UInt8} {ok : Bool} (h : literalLoop l s = some (s',ok)) :
    Standing w s' ∧ s.readidx ≤ s'.readidx ∧ ∃ b, Seen w s s' b ∧
      (ok = true ∧ b = false ∧ l <+: ahead w s ∧ s'.cur.i = s.cur.i + l.length ∨
        ok = false ∧ ¬l <+: ahead w s ∧ (b = true ↔ ahead w s <+: l)) := by
  induction l generalizing s with
  | nil =>
    cases h
    exact ⟨hb,le_rfl,false,rfl,Or.inl ⟨rfl,rfl,List.nil_prefix,rfl⟩⟩
  | cons b bs ih =>
    simp only [literalLoop, Option.bind_eq_bind, Option.bind_eq_some_iff] at h
    obtain ⟨⟨t,c⟩,hc,h⟩ := h
    obtain ⟨hbt,hg,hs,hstop,hchar⟩ := cpgGetc_spec hb hc
    by_cases heq : c = some b
    · obtain ⟨ha,hi⟩ := hchar b heq
      rw [if_pos heq] at h
      obtain ⟨hbs,hg',b',hs',hr⟩ := ih hbt h
      rw [heq] at hs
      refine ⟨hbs,hg.trans hg',b',by simpa using hs.trans hs',?_⟩
      rw [ha]
      refine hr.imp (fun ⟨h1,h2,h3,h4⟩ => ⟨h1,h2,by simpa using h3,?_⟩) (fun ⟨h1,h2,h3⟩ => ⟨h1,by simpa using h2,by simpa using h3⟩)
      rw [h4,hi,List.length_cons]
      omega
    · rw [if_neg heq] at h
      cases h
      cases c with
      | none =>
        refine ⟨hbt,hg,true,hs,Or.inr ⟨rfl,?_⟩⟩
        rw [(hstop rfl).1]
        simp
      | some c =>
        refine ⟨hbt,hg,false,hs,Or.inr ⟨rfl,?_⟩⟩
        have hne : b ≠ c := fun e => heq (congrArg some e.symm)
        rw [(hchar c rfl).1,List.cons_prefix_cons,List.cons_prefix_cons]
        exact ⟨fun hp => hne hp.1,by simp,fun hp => absurd hp.1.symm hne⟩

theorem cpgMatchLiteral_sound {k : ℤ} {n : PegNode σ} {r : CpgState σ × ℤ} (hn : g.node k = some n)
    (hr : cpgMatchLiteral g s k = some r) : Outcome g w (.lit n.str) s r := by
  simp only [cpgMatchLiteral, hn, Option.bind_eq_bind, Option.bind_some, Option.bind_eq_some_iff] at hr
  obtain ⟨⟨s',ok⟩,hl,hr⟩ := hr
  obtain ⟨hbs,hg,b,hs,⟨rfl,rfl,hp,hi⟩ | ⟨rfl,hp,he⟩⟩ := literalLoop_spec hb hl
  · simp only [if_true] at hr
    cases hr
    exact ⟨hbs,hg,false,hs,Or.inl ⟨rfl,_,.litHit hp,hi⟩⟩
  · simp only [Bool.false_eq_true, if_false] at hr
    cases hr
    cases b with
    | true => exact .failed hb hbs hg hs rfl (.litEnd hp (he.1 rfl))
    | false => exact .failed hb hbs hg hs rfl (.litMiss hp fun h => by simpa using he.2 h)

end

/-! ## Loops -/

/-- A matcher that does what its expression says wherever it is called. -/
def Sound (g : PegGrammar σ) (w : List UInt8) (m : Matcher σ) (e : ℤ → Pexp Sym UInt8) : Prop :=
  ∀ s k r, Standing w s → m s k = some r → Outcome g w (e k) s r

theorem exprLoop_sound {mseq : Matcher σ} (hm : Sound g w mseq (fun k => .nt (.seqn k))) (hb : Standing w s) {seq : ℤ}
    {fuel : ℕ} {r : CpgState σ × ℤ} (hr : loop (exprBody g mseq) fuel (s,seq) = some r) :
    Outcome g w (.nt (.expr seq)) s r := by
  let I : CpgState σ × ℤ → Prop := fun x => Standing w x.1 ∧ s.readidx ≤ x.1.readidx ∧ x.1.cur = s.cur ∧
    ∃ b, Seen w s x.1 b ∧ ∀ q b', Trace (rules g) (.nt (.expr x.2)) (ahead w s) q b' →
      Trace (rules g) (.nt (.expr seq)) (ahead w s) q (b || b')
  refine loop_partial (I := I) ?_ ?_ ⟨hb,le_rfl,rfl,false,seen_refl,fun _ _ h => h⟩ hr
  · rintro ⟨t,k⟩ ⟨t',k'⟩ ⟨hbt,hg,hc,b,hs,hI⟩ hbody
    simp only [exprBody] at hbody
    split at hbody
    · rename_i hk
      cases hms : mseq t k with
      | none => simp [hms] at hbody
      | some q =>
        obtain ⟨t₁,rv⟩ := q
        obtain ⟨hb₁,hg₁,b₁,hs₁,hout⟩ := hm t k _ hbt hms
        have hah : ahead w t = ahead w s := by rw [ahead,ahead,hc]
        rcases hout with ⟨hrv,-⟩ | ⟨hrv,he,hcur⟩
        · dsimp only at hrv
          simp [hms, hrv] at hbody
        · dsimp only at hrv hcur
          cases hn : g.node k with
          | none => simp [hms, hrv, hn] at hbody
          | some n =>
            simp [hms, hrv, hn] at hbody
            obtain ⟨rfl,rfl⟩ := hbody
            refine ⟨hb₁,hg.trans hg₁,hcur.trans hc,b || b₁,hs.trans hs₁,fun q b' hq => ?_⟩
            rw [Bool.or_assoc]
            refine hI q _ (.nt ?_)
            simp only [rules, not_lt.mpr hk, if_false, hn]
            exact .altRight (hah ▸ he) hq
    · cases hbody
  · rintro ⟨t,k⟩ r ⟨hbt,hg,hc,b,hs,hI⟩ hbody
    have hah : ahead w t = ahead w s := by rw [ahead,ahead,hc]
    simp only [exprBody] at hbody
    split at hbody
    · rename_i hk
      cases hms : mseq t k with
      | none => simp [hms] at hbody
      | some q =>
        obtain ⟨t₁,rv⟩ := q
        obtain ⟨hb₁,hg₁,b₁,hs₁,hout⟩ := hm t k _ hbt hms
        rcases hout with ⟨hrv,n,he,hi⟩ | ⟨hrv,-⟩
        · dsimp only at hrv hi
          simp only [hms, hrv, Option.bind_eq_bind, Option.bind_some, ne_eq, one_ne_zero, not_false_eq_true, if_true,
            Option.pure_def, Option.some.injEq, Turn.leave.injEq] at hbody
          subst hbody
          refine ⟨hb₁,hg.trans hg₁,b || b₁,hs.trans hs₁,Or.inl ⟨rfl,n,hI _ _ (.nt ?_),by rw [← hc]; exact hi⟩⟩
          have hnode : ∃ p, g.node k = some p := by
            cases hn : g.node k with
            | some p => exact ⟨p,rfl⟩
            | none =>
              cases he with
              | nt he => simp only [rules, hn] at he; cases he
          obtain ⟨p,hn⟩ := hnode
          simp only [rules, not_lt.mpr hk, if_false, hn]
          exact .altLeft (hah ▸ he)
        · dsimp only at hrv
          cases hn : g.node k with
          | none => simp [hms, hrv, hn] at hbody
          | some n => simp [hms, hrv, hn] at hbody
    · rename_i hk
      cases hbody
      refine ⟨hbt,hg,b,hs,Or.inr ⟨rfl,?_,hc⟩⟩
      rw [← Bool.or_false b]
      refine hI _ _ (.nt ?_)
      simp only [rules, not_le.mp hk, if_true]
      exact .fail

theorem seqLoop_sound {mpri : Matcher σ} (hm : Sound g w mpri (fun k => .nt (.pri k))) (hb : Standing w s) {pri : ℤ}
    {fuel : ℕ} {r : CpgState σ × ℤ} (hr : loop (seqBody g mpri s.cur) fuel (s,pri) = some r) :
    Outcome g w (.nt (.prims pri)) s r := by
  let I : CpgState σ × ℤ → Prop := fun x => Standing w x.1 ∧ s.readidx ≤ x.1.readidx ∧ ∃ d b,
    x.1.cur.i = s.cur.i + d ∧ Seen w s x.1 b ∧
      ∀ q b', Trace (rules g) (.nt (.prims x.2)) ((ahead w s).drop d) q b' →
        Trace (rules g) (.nt (.prims pri)) (ahead w s) (q.map (d + ·)) (b || b')
  have h0 : I (s,pri) := ⟨hb,le_rfl,0,false,rfl,seen_refl,fun q b' h => by cases q <;> simpa using h⟩
  -- one more primary of the sequence
  have hstep : ∀ {d : ℕ} {b b' : Bool} {k : ℤ} {q q' : Option ℕ} {n : PegNode σ}, k ≥ 0 → g.node k = some n →
      (∀ q b', Trace (rules g) (.nt (.prims k)) ((ahead w s).drop d) q b' →
        Trace (rules g) (.nt (.prims pri)) (ahead w s) (q.map (d + ·)) (b || b')) →
      Trace (rules g) (.seq (.nt (.pri k)) (.nt (.prims n.next))) ((ahead w s).drop d) q b' → q.map (d + ·) = q' →
      Trace (rules g) (.nt (.prims pri)) (ahead w s) q' (b || b') := by
    intro d b b' k q q' n hk hn hI hq hqq
    rw [← hqq]
    refine hI q _ (.nt ?_)
    simp only [rules, not_lt.mpr hk, if_false, hn]
    exact hq
  refine loop_partial (I := I) ?_ ?_ h0 hr
  · rintro ⟨t,k⟩ ⟨t',k'⟩ ⟨hbt,hg,d,b,hd,hs,hI⟩ hbody
    have hah := ahead_add hb hd
    dsimp only at hah
    simp only [seqBody] at hbody
    split at hbody
    · rename_i hk
      cases hms : mpri t k with
      | none => simp [hms] at hbody
      | some q =>
        obtain ⟨t₁,rv⟩ := q
        obtain ⟨hb₁,hg₁,b₁,hs₁,hout⟩ := hm t k _ hbt hms
        rcases hout with ⟨hrv,n,he,hi⟩ | ⟨hrv,-⟩
        · dsimp only at hrv hi hd
          cases hn : g.node k with
          | none => simp [hms, hrv, hn] at hbody
          | some p =>
            simp [hms, hrv, hn] at hbody
            obtain ⟨rfl,rfl⟩ := hbody
            refine ⟨hb₁,hg.trans hg₁,d + n,b || b₁,by rw [hi,hd,Nat.add_assoc],hs.trans hs₁,fun q b' hq => ?_⟩
            rw [hah] at he
            rw [← List.drop_drop] at hq
            rw [Bool.or_assoc]
            refine hstep hk hn hI (.seqStep he hq) ?_
            cases q <;> simp [Nat.add_assoc]
        · dsimp only at hrv
          simp [hms, hrv] at hbody
    · cases hbody
  · rintro ⟨t,k⟩ r ⟨hbt,hg,d,b,hd,hs,hI⟩ hbody
    have hah := ahead_add hb hd
    dsimp only at hah
    simp only [seqBody] at hbody
    split at hbody
    · rename_i hk
      cases hms : mpri t k with
      | none => simp [hms] at hbody
      | some q =>
        obtain ⟨t₁,rv⟩ := q
        obtain ⟨hb₁,hg₁,b₁,hs₁,hout⟩ := hm t k _ hbt hms
        rcases hout with ⟨hrv,-⟩ | ⟨hrv,he,-⟩
        · dsimp only at hrv
          cases hn : g.node k with
          | none => simp [hms, hrv, hn] at hbody
          | some n => simp [hms, hrv, hn] at hbody
        · dsimp only at hrv
          simp only [hms, hrv, Option.bind_eq_bind, Option.bind_some, le_refl, if_true, Option.pure_def,
            Option.some.injEq, Turn.leave.injEq] at hbody
          subst hbody
          rw [hah] at he
          refine .failed hb hb₁ (hg.trans hg₁) (hs.trans hs₁) rfl ?_
          cases hn : g.node k with
          | some n => exact hstep hk hn hI (.seqFail he) rfl
          | none =>
            cases he with
            | nt he =>
              refine hI none _ (.nt ?_)
              simp only [rules, hn] at he
              cases he
              simp only [rules, not_lt.mpr hk, if_false, hn]
              exact .fail
    · rename_i hk
      cases hbody
      refine ⟨hbt,hg,b,hs,Or.inl ⟨rfl,d,?_,hd⟩⟩
      rw [← Bool.or_false b]
      refine hI (some 0) _ (.nt ?_)
      simp only [rules, not_le.mp hk, if_true]
      exact .eps

/-- What the do-while loop of a primary leaves behind. -/
def Repeated (g : PegGrammar σ) (w : List UInt8) (e : Pexp Sym UInt8) (rep : Bool) (s : CpgState σ)
    (r : CpgState σ × ℕ × ℤ) : Prop :=
  Standing w r.1 ∧ s.readidx ≤ r.1.readidx ∧ 0 ≤ r.2.2 ∧ ∃ b, Seen w s r.1 b ∧
    if rep then ∃ n, Trace (rules g) (.star e) (ahead w s) (some n) b ∧ r.1.cur.i = s.cur.i + n ∧
      (1 ≤ r.2.1 ∧ Trace (rules g) (.plus e) (ahead w s) (some n) b ∨
        r.2.1 = 0 ∧ Trace (rules g) (.plus e) (ahead w s) none b)
    else r.2.1 = 1 ∧ (∃ n, Trace (rules g) e (ahead w s) (some n) b ∧ r.1.cur.i = s.cur.i + n) ∨
      r.2.1 = 0 ∧ Trace (rules g) e (ahead w s) none b ∧ r.1.cur = s.cur

theorem priLoop_sound {m : CpgState σ → Option (CpgState σ × ℤ)} {e : Pexp Sym UInt8} {rep : Bool}
    (hm : ∀ t r, Standing w t → m t = some r → Outcome g w e t r) (hb : Standing w s) {fuel : ℕ}
    {r : CpgState σ × ℕ × ℤ} (hr : loop (priBody rep m) fuel (s,0) = some r) : Repeated g w e rep s r := by
  -- the matches so far are those of a repetition that goes on at the cursor
  let I : CpgState σ × ℕ → Prop := fun x => Standing w x.1 ∧ s.readidx ≤ x.1.readidx ∧
    ∃ d b, x.1.cur.i = s.cur.i + d ∧ Seen w s x.1 b ∧
      (x.2 = 0 ∧ d = 0 ∧ b = false ∧ x.1.cur = s.cur ∨ 1 ≤ x.2 ∧ rep = true ∧
        ∀ n b', Trace (rules g) (.star e) ((ahead w s).drop d) (some n) b' →
          Trace (rules g) (.star e) (ahead w s) (some (d + n)) (b || b') ∧
          Trace (rules g) (.plus e) (ahead w s) (some (d + n)) (b || b'))
  refine loop_partial (I := I) ?_ ?_ ⟨hb,le_rfl,0,false,rfl,seen_refl,Or.inl ⟨rfl,rfl,rfl,rfl⟩⟩ hr
  · rintro ⟨t,k⟩ ⟨t',k'⟩ ⟨hbt,hg,d,b,hd,hs,hI⟩ hbody
    have hah := ahead_add hb hd
    dsimp only at hah
    cases hms : m t with
    | none => simp [priBody, hms] at hbody
    | some q =>
      obtain ⟨t₁,rv⟩ := q
      obtain ⟨hb₁,hg₁,b₁,hs₁,hout⟩ := hm t _ hbt hms
      rcases hout with ⟨hrv,n,he,hi⟩ | ⟨hrv,-⟩
      · dsimp only at hrv hi hd
        cases hrep : rep with
        | false => simp [priBody, hms, hrv, hrep] at hbody
        | true =>
          simp [priBody, hms, hrv, hrep] at hbody
          obtain ⟨rfl,rfl⟩ := hbody
          rw [hah] at he
          refine ⟨hb₁,hg.trans hg₁,d + n,b || b₁,by rw [hi,hd,Nat.add_assoc],hs.trans hs₁,
            Or.inr ⟨Nat.le_add_left 1 k,hrep,fun j b' hj => ?_⟩⟩
          rw [← List.drop_drop] at hj
          rcases hI with ⟨-,rfl,rfl,-⟩ | ⟨-,-,hI⟩
          · rw [List.drop_zero] at he hj
            rw [Nat.zero_add,Bool.false_or]
            exact ⟨.starStep he hj,.plusStep he hj⟩
          · rw [Nat.add_assoc,Bool.or_assoc]
            exact hI (n + j) _ (.starStep he hj)
      · dsimp only at hrv
        simp [priBody, hms, hrv] at hbody
  · rintro ⟨t,k⟩ r ⟨hbt,hg,d,b,hd,hs,hI⟩ hbody
    have hah := ahead_add hb hd
    dsimp only at hah
    cases hms : m t with
    | none => simp [priBody, hms] at hbody
    | some q =>
      obtain ⟨t₁,rv⟩ := q
      obtain ⟨hb₁,hg₁,b₁,hs₁,hout⟩ := hm t _ hbt hms
      rw [hah] at hout
      rcases hout with ⟨hrv,n,he,hi⟩ | ⟨hrv,he,hcur⟩
      · dsimp only at hrv hi hd
        rcases hI with ⟨rfl,rfl,rfl,-⟩ | ⟨-,hrep,-⟩
        · cases hrep : rep with
          | true => simp [priBody, hms, hrv, hrep] at hbody
          | false =>
            simp [priBody, hms, hrv, hrep] at hbody
            subst hbody
            rw [List.drop_zero] at he
            exact ⟨hb₁,hg.trans hg₁,zero_le_one,b₁,hs.trans hs₁,Or.inl ⟨rfl,n,he,by rw [hi,hd]; rfl⟩⟩
        · simp [priBody, hms, hrv, hrep] at hbody
      · dsimp only at hrv hcur hd
        simp [priBody, hms, hrv] at hbody
        subst hbody
        refine ⟨hb₁,hg.trans hg₁,le_rfl,b || b₁,hs.trans hs₁,?_⟩
        rcases hI with ⟨rfl,rfl,rfl,hc⟩ | ⟨hk,hrep,hI⟩
        · rw [List.drop_zero] at he
          rw [Bool.false_or]
          split
          · exact ⟨0,.starStop he,by rw [hcur,hd],Or.inr ⟨rfl,.plusFail he⟩⟩
          · exact Or.inr ⟨rfl,he,hcur.trans hc⟩
        · rw [if_pos hrep]
          have hdone := hI 0 _ (.starStop he)
          exact ⟨d,hdone.1,by rw [hcur,hd],Or.inl ⟨hk,hdone.2⟩⟩

/-! ## Primaries -/

theorem finish_sound {pn : PegNode σ} {e : Pexp Sym UInt8} {pri : ℤ} {s' : CpgState σ} {nmatch : ℕ} {rv₀ rv : ℤ}
    {t : CpgState σ} (hact : ∀ i r a, 0 ≤ (pn.actionCb i r a).1) (hb : Standing w s)
    (hrep : Repeated g w e (pn.sfx = .star ∨ pn.sfx = .plus) s (s',nmatch,rv₀)) (hs : suffixRv pn.sfx nmatch = some rv)
    {rv' : ℤ} (hp : prefixRv pn.pfx s.cur s' rv = some (t,rv')) :
    Outcome g w (prefixPexp pn.pfx (suffixPexp pn.sfx e)) s (runAction pn pri s.cur t rv') := by
  obtain ⟨hbs,hg,-,b,hs',hrep⟩ := hrep
  -- the suffix
  have hsfx : (rv = 1 ∧ ∃ n, Trace (rules g) (suffixPexp pn.sfx e) (ahead w s) (some n) b ∧ s'.cur.i = s.cur.i + n) ∨
      (rv = 0 ∧ Trace (rules g) (suffixPexp pn.sfx e) (ahead w s) none b) := by
    cases hx : pn.sfx with
    | none =>
      simp only [hx, suffixRv, Option.some.injEq, reduceCtorEq, or_self, decide_false, Bool.false_eq_true, if_false] at hs hrep
      rcases hrep with ⟨h1,n,h2,h3⟩ | ⟨h1,h2,-⟩
      · exact Or.inl ⟨by simp [← hs, h1],n,h2,h3⟩
      · exact Or.inr ⟨by simp [← hs, h1],h2⟩
    | question =>
      simp only [hx, suffixRv, Option.some.injEq, reduceCtorEq, or_self, decide_false, Bool.false_eq_true, if_false] at hs hrep
      rcases hrep with ⟨-,n,h2,h3⟩ | ⟨-,h2,h3⟩
      · exact Or.inl ⟨hs.symm,n,.optHit h2,h3⟩
      · exact Or.inl ⟨hs.symm,0,.optMiss h2,congrArg Cursor.i h3⟩
    | star =>
      simp only [hx, suffixRv, Option.some.injEq, true_or, decide_true, if_true] at hs hrep
      obtain ⟨n,h1,h2,-⟩ := hrep
      exact Or.inl ⟨hs.symm,n,h1,h2⟩
    | plus =>
      simp only [hx, suffixRv, Option.some.injEq, or_true, decide_true, if_true] at hs hrep
      obtain ⟨n,-,h2,⟨h3,h4⟩ | ⟨h3,h4⟩⟩ := hrep
      · exact Or.inl ⟨by simp [← hs, h3],n,h4,h2⟩
      · exact Or.inr ⟨by simp [← hs, h3],h4⟩
    | and => simp [hx, suffixRv] at hs
    | not => simp [hx, suffixRv] at hs
  -- the prefix
  have hpfx : Outcome g w (prefixPexp pn.pfx (suffixPexp pn.sfx e)) s (t,rv') := by
    have hback := hbs.setCur hb.pos (hb.le.trans hg)
    cases hx : pn.pfx with
    | none =>
      simp only [hx, prefixRv, Option.some.injEq, Prod.mk.injEq] at hp
      obtain ⟨rfl,rfl⟩ := hp
      rcases hsfx with ⟨rfl,n,he,hi⟩ | ⟨rfl,he⟩
      · exact ⟨hbs,hg,b,hs',Or.inl ⟨rfl,n,he,hi⟩⟩
      · exact ⟨hback,hg,b,hs',Or.inr ⟨rfl,he,rfl⟩⟩
    | not =>
      simp only [hx, prefixRv, Option.some.injEq, Prod.mk.injEq] at hp
      obtain ⟨rfl,rfl⟩ := hp
      rcases hsfx with ⟨rfl,n,he,hi⟩ | ⟨rfl,he⟩
      · exact ⟨hback,hg,b,hs',Or.inr ⟨rfl,.neverHit he,rfl⟩⟩
      · exact ⟨hback,hg,b,hs',Or.inl ⟨rfl,0,.neverMiss he,rfl⟩⟩
    | and =>
      simp only [hx, prefixRv, Option.some.injEq, Prod.mk.injEq] at hp
      obtain ⟨rfl,rfl⟩ := hp
      rcases hsfx with ⟨rfl,n,he,hi⟩ | ⟨rfl,he⟩
      · exact ⟨hback,hg,b,hs',Or.inl ⟨rfl,0,.aheadHit he,rfl⟩⟩
      · exact ⟨hback,hg,b,hs',Or.inr ⟨rfl,.aheadMiss he,rfl⟩⟩
    | question => simp [hx, prefixRv] at hp
    | star => simp [hx, prefixRv] at hp
    | plus => simp [hx, prefixRv] at hp
  -- the action
  unfold runAction
  split
  · have h0 := hact pri ((List.range (t.cur.i - s.cur.i)).map (fun k => t.buf (s.cur.i + k))) t.aux
    simp only [not_lt.mpr h0, if_false]
    exact ⟨hpfx.buffered.setAux _,hpfx.grown,hpfx.meaning⟩
  · exact hpfx

/-! ## The four functions -/

/-- No action callback returns a negative value. -/
def PegGrammar.Mild (g : PegGrammar σ) : Prop := ∀ pn ∈ g.nodes, ∀ i r a, 0 ≤ (pn.actionCb i r a).1

theorem PegGrammar.Mild.node (hg : g.Mild) {k : ℤ} {pn : PegNode σ} (hn : g.node k = some pn) :
    ∀ i r a, 0 ≤ (pn.actionCb i r a).1 := by
  unfold PegGrammar.node at hn
  split at hn
  · cases hn
  · exact hg pn (List.mem_of_getElem? hn)

theorem node_of_valid {k : ℤ} {pn : PegNode σ} {type : PegType} (h : g.valid k type = some pn) :
    g.node k = some pn ∧ pn.type = type := by
  simp only [PegGrammar.valid, Option.bind_eq_bind, Option.bind_eq_some_iff, Option.ite_none_right_eq_some,
    Option.some.injEq] at h
  obtain ⟨n,hn,ht,rfl⟩ := h
  exact ⟨hn,ht⟩

theorem matchNode_sound {mexpr mident : Matcher σ}
    (he : Sound g w mexpr (fun k => .nt (.expr k))) (hi : Sound g w mident (fun k => .nt (.ident k))) {k : ℤ}
    {n : PegNode σ} (hn : g.node k = some n) (hb : Standing w s) {r : CpgState σ × ℤ}
    (hr : matchNode g mexpr mident n.type k s = some r) : Outcome g w (matchPexp g k) s r := by
  simp only [matchPexp, hn]
  cases hty : n.type with
  | sequence => rw [hty] at hr; exact he s k r hb hr
  | identifier => rw [hty] at hr; exact hi s k r hb hr
  | literal => rw [hty] at hr; exact cpgMatchLiteral_sound hb hn hr
  | cls => rw [hty] at hr; exact cpgMatchClass_sound hb hn hr
  | none => simp [hty, matchNode] at hr
  | definition => simp [hty, matchNode] at hr
  | primary => simp [hty, matchNode] at hr

theorem cpg_sound (hg : g.Mild) (fuel : ℕ) :
    Sound g w (cpgMatchExpression g fuel) (fun k => .nt (.expr k)) ∧
    Sound g w (cpgMatchSequence g fuel) (fun k => .nt (.seqn k)) ∧
    Sound g w (cpgMatchPrimary g fuel) (fun k => .nt (.pri k)) ∧
    Sound g w (cpgMatchIdentifier g fuel) (fun k => .nt (.ident k)) := by
  induction fuel with
  | zero =>
    refine ⟨?_,?_,?_,?_⟩ <;> intro s k r _ hr
    · simp [cpgMatchExpression] at hr
    · simp [cpgMatchSequence] at hr
    · simp [cpgMatchPrimary] at hr
    · simp [cpgMatchIdentifier] at hr
  | succ fuel ih =>
    obtain ⟨ihe,ihs,ihp,ihi⟩ := ih
    refine ⟨?_,?_,?_,?_⟩ <;> intro s k r hb hr
    · simp only [cpgMatchExpression] at hr
      exact exprLoop_sound ihs hb hr
    · simp only [cpgMatchSequence, Option.bind_eq_bind, Option.bind_eq_some_iff] at hr
      obtain ⟨pn,hv,hr⟩ := hr
      refine Outcome.nt ?_
      simp only [rules, (node_of_valid hv).1]
      exact seqLoop_sound ihp hb hr
    · simp only [cpgMatchPrimary, Option.bind_eq_bind, Option.bind_eq_some_iff] at hr
      obtain ⟨pn,hv,mn,hmn,⟨s',nmatch,rv⟩,hl,hr⟩ := hr
      have hn := (node_of_valid hv).1
      have hrep := priLoop_sound (fun t q hbt hq => matchNode_sound ihe ihi hmn hbt hq) hb hl
      have hrv : ¬rv < 0 := not_lt.mpr hrep.2.2.1
      simp only [hrv, if_false, Option.bind_eq_some_iff] at hr
      obtain ⟨rv₁,hs₁,⟨t,rv₂⟩,hp,hr⟩ := hr
      cases hr
      refine Outcome.nt ?_
      simp only [rules, hn]
      exact finish_sound (hg.node hn) hb hrep hs₁ hp
    · simp only [cpgMatchIdentifier, Option.bind_eq_bind, Option.bind_eq_some_iff] at hr
      obtain ⟨pn,hn,hr⟩ := hr
      refine Outcome.nt ?_
      simp only [rules, hn]
      split at hr
      · rename_i ht
        rw [if_pos ht]
        exact cpgMatchToken_sound hb hn hr
      · rename_i ht
        rw [if_neg ht]
        simp only [Option.bind_eq_some_iff] at hr
        obtain ⟨d,hv,hr⟩ := hr
        simp only [(node_of_valid hv).1]
        exact ihe s _ r hb hr

/-- The return value and the cursor say exactly what the meaning of the nonterminal says of
the input at the cursor. -/
structure Agrees (g : PegGrammar σ) (w : List UInt8) (a : Sym) (s : CpgState σ) (r : CpgState σ × ℤ) : Prop where
  answer : r.2 = 1 ∨ r.2 = 0
  success : ∀ n, Eval (rules g) (.nt a) (ahead w s) (some n) ↔ r.2 = 1 ∧ r.1.cur.i = s.cur.i + n
  failure : Eval (rules g) (.nt a) (ahead w s) none ↔ r.2 = 0
  back : r.2 = 0 → r.1.cur = s.cur
  buffered : Buffered w r.1

theorem Outcome.agrees {a : Sym} {r : CpgState σ × ℤ} (h : Outcome g w (.nt a) s r) : Agrees g w a s r := by
  obtain ⟨b,-,⟨hrv,n,he,hi⟩ | ⟨hrv,he,hc⟩⟩ := h.meaning
  · replace he := he.eval
    refine ⟨Or.inl hrv,fun m => ⟨fun hm => ?_,fun hm => ?_⟩,⟨fun hn => ?_,fun h0 => ?_⟩,fun h0 => ?_,h.buffered.toBuffered⟩
    · cases he.unique hm
      exact ⟨hrv,hi⟩
    · obtain rfl : n = m := by omega
      exact he
    · cases he.unique hn
    · omega
    · omega
  · replace he := he.eval
    refine ⟨Or.inr hrv,fun m => ⟨fun hm => ?_,fun hm => ?_⟩,⟨fun _ => hrv,fun _ => he⟩,fun _ => hc,h.buffered.toBuffered⟩
    · cases he.unique hm
    · omega

/-- From any position of any input, with any prefix of it in the buffer, a matching function
that returns agrees with the grammar. -/
theorem cpg_agrees (hg : g.Mild) (hw : w.length < 2 ^ 31) (hb : Buffered w s) (fuel : ℕ) (k : ℤ) :
    (∀ r, cpgMatchExpression g fuel s k = some r → Agrees g w (.expr k) s r) ∧
    (∀ r, cpgMatchSequence g fuel s k = some r → Agrees g w (.seqn k) s r) ∧
    (∀ r, cpgMatchPrimary g fuel s k = some r → Agrees g w (.pri k) s r) ∧
    ∀ r, cpgMatchIdentifier g fuel s k = some r → Agrees g w (.ident k) s r := by
  obtain ⟨h1,h2,h3,h4⟩ := cpg_sound (w := w) hg fuel
  replace hb : Standing w s := ⟨hb,Or.inl hw⟩
  exact ⟨fun r hr => (h1 s k r hb hr).agrees,fun r hr => (h2 s k r hb hr).agrees,
    fun r hr => (h3 s k r hb hr).agrees,fun r hr => (h4 s k r hb hr).agrees⟩

/-- The table of `"a"*`, as an expression at index 0. -/
def sampleGrammar : PegGrammar Unit where
  nodes := [⟨.sequence,[],-1,1,.none,.none,.none,fun _ _ a => (0,a)⟩,
    ⟨.primary,[],-1,2,.callback,.none,.star,fun _ _ a => (0,a)⟩,
    ⟨.literal,[97],-1,-1,.none,.none,.none,fun _ _ a => (0,a)⟩]
  numTokens := 0

def sampleMatch : Option (CpgState Unit × ℤ) := cpgMatchExpression sampleGrammar 9 (cpgInit [97,97] ()) 0

theorem sampleMatch_isSome : sampleMatch.isSome := by decide

theorem cpg_agrees_sample :
    Agrees sampleGrammar [97,97] (.expr 0) (cpgInit [97,97] ()) (sampleMatch.get sampleMatch_isSome) :=
  (cpg_agrees (by simp [PegGrammar.Mild, sampleGrammar]) (by decide) (buffered_init [97,97] ()) 9 0).1 _
    (Option.some_get sampleMatch_isSome).symm

end Catlib.Peg
