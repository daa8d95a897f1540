import Catlib.Logic.Runs
import Catlib.Peg.Sound

/-! # Reading with a cursor that moves back

The matching functions read through `cpg_getc` and put the cursor back to places they have kept.
The input function is asked for every character once, and is not asked again at the end.
-/
namespace Catlib.Peg

variable {σ : Type} {w : List UInt8} {s s' : CpgState σ} {a : σ}

/-- What is done with the cursor: a character is read, or it goes back to a place that was kept. -/
inductive CurOp where
  | getc
  | setCur (c : Cursor)

/-- The input function is called. -/
def CpgState.Asks (s : CpgState σ) : Prop := s.cur.i < s.eof ∧ s.readidx ≤ s.cur.i

instance CpgState.decidableAsks (s : CpgState σ) : Decidable s.Asks := inferInstanceAs (Decidable (_ ∧ _))

/-- A state with the places of the cursor so far, and what the input function has answered. -/
structure Reading (σ : Type) where
  s : CpgState σ
  visited : List Cursor
  answers : List (Option UInt8)

/-- Behind `cpg_init`, before an input. -/
def Reading.start (w : List UInt8) (a : σ) : Reading σ := ⟨cpgInit w a,[(cpgInit w a).cur],[]⟩

inductive ReadStep : Reading σ → CurOp → Reading σ → Prop
  | getc {r : Reading σ} {s' : CpgState σ} {c : Option UInt8} (h : cpgGetc r.s = some (s',c)) :
      ReadStep r .getc ⟨s',s'.cur :: r.visited,r.answers ++ if r.s.Asks then [r.s.inp.head?] else []⟩
  | setCur {r : Reading σ} {c : Cursor} (h : c ∈ r.visited) : ReadStep r (.setCur c) { r with s := { r.s with cur := c } }

theorem cpgGetc_asks (hb : Standing w s) (hw : w.length < 2 ^ 31) : ∃ s' c, cpgGetc s = some (s',c) ∧ Got w s s' c ∧
    s'.readidx = s.readidx + (if s.Asks then s.inp.take 1 else []).length ∧
    s'.eof = if s.Asks ∧ s.inp = [] then s.cur.i else s.eof := by
  by_cases heof : s.eof ≤ s.cur.i
  · have hno : ¬s.Asks := fun h => absurd h.1 (not_lt.mpr heof)
    obtain ⟨ht,hg⟩ := cpgGetc_end hb heof
    exact ⟨s,none,ht,hg,by rw [if_neg hno]; rfl,by rw [if_neg fun h => hno h.1]⟩
  obtain ⟨t,ht,hbt,hcur,hread,hte,hlt⟩ := growBuf_spec hb (Or.inl hw)
  have hinp : t.inp = s.inp := by rw [hbt.rest,hb.rest,hread]
  have hcall : cpgGetc s = if t.readidx ≤ t.cur.i then fillBuf t else stepOver t := by
    rw [cpgGetc,if_neg heof,ht]
    rfl
  by_cases hr : t.readidx ≤ t.cur.i
  · have hasks : s.Asks := ⟨not_le.mp heof,hcur ▸ hread ▸ hr⟩
    obtain ⟨s',c,hf,-⟩ := fillBuf_spec hbt hlt hr
    have he : t.cur.i = t.readidx := le_antisymm hbt.le hr
    have hget : cpgGetc s = some (s',c) := by rw [hcall,if_pos hr,hf]
    refine ⟨s',c,hget,cpgGetc_spec hb hget,?_⟩
    rw [fillBuf,if_neg (by omega)] at hf
    rw [if_pos hasks]
    cases hi : t.inp with
    | nil =>
      rw [hi] at hf
      cases hf
      rw [← hinp,hi,if_pos ⟨hasks,rfl⟩,← hread,← hcur]
      exact ⟨rfl,rfl⟩
    | cons b inp =>
      rw [hi] at hf
      have hstep := (stepOver_spec (hbt.append (he ▸ hlt) hi) (show t.cur.i < t.readidx + 1 by omega)).1
      obtain ⟨rfl,-⟩ := Prod.mk.inj (Option.some.inj (hf.symm.trans hstep))
      rw [← hinp,hi,if_neg (fun h => by cases h.2),← hread,← hte]
      exact ⟨rfl,rfl⟩
  · have hno : ¬s.Asks := fun h => hr (hcur ▸ hread ▸ h.2)
    obtain ⟨hs,-⟩ := stepOver_spec hbt (not_le.mp hr)
    have hget : cpgGetc s = some (t.next,some (t.buf t.cur.i)) := by rw [hcall,if_neg hr,hs]
    refine ⟨t.next,_,hget,cpgGetc_spec hb hget,?_⟩
    rw [if_neg hno,if_neg fun h => hno h.1,← hread,← hte]
    exact ⟨rfl,rfl⟩

/-- What holds in every state of a run. -/
structure ReadInv (w : List UInt8) (r : Reading σ) : Prop where
  standing : Standing w r.s
  kept : ∀ c ∈ r.visited, 1 ≤ c.i ∧ c.i ≤ r.s.readidx
  ended : r.s.eof ≠ uintMod - 1 → r.s.readidx = w.length + 1
  answers : r.answers = (w.take (r.s.readidx - 1)).map some ++ if r.s.eof = uintMod - 1 then [] else [none]

theorem readInv_start (w : List UInt8) (a : σ) : ReadInv w (Reading.start w a) := by
  refine ⟨standing_init w a,fun c hc => ?_,fun h => absurd rfl h,rfl⟩
  obtain rfl := List.mem_singleton.mp hc
  exact ⟨le_rfl,le_rfl⟩

theorem take_head (w : List UInt8) (n : ℕ) : w.take n ++ (w.drop n).take 1 = w.take (n + ((w.drop n).take 1).length) := by
  rw [List.take_add]
  cases w.drop n <;> rfl

theorem ReadStep.inv (hw : w.length < 2 ^ 31) {r u : Reading σ} {op : CurOp} (hi : ReadInv w r) (h : ReadStep r op u) :
    ReadInv w u := by
  obtain ⟨hb,hkept,hended,hans⟩ := hi
  cases h with
  | setCur hc => exact ⟨hb.setCur (hkept _ hc).1 (hkept _ hc).2,hkept,hended,hans⟩
  | @getc s' c h =>
    obtain ⟨t,d,ht,hg,hread,heof⟩ := cpgGetc_asks hb hw
    obtain ⟨rfl,rfl⟩ := Prod.mk.inj (Option.some.inj (ht.symm.trans h))
    have hb' := hg.buffered
    have hsmall := hb.small
    have hpos := hb.pos.trans hb.le
    have hlimit : w.length + 1 < uintMod - 1 := by
      unfold uintMod
      omega
    -- the input has ended exactly when the buffer holds it all
    have hinp : r.s.inp = [] ↔ r.s.readidx = w.length + 1 := by
      rw [hb.rest,List.drop_eq_nil_iff]
      omega
    have hlow : r.s.readidx - 1 + (if r.s.Asks then r.s.inp.take 1 else []).length = t.readidx - 1 := by omega
    refine ⟨hb',fun c hc => ?_,fun hne => ?_,?_⟩
    · rcases List.mem_cons.mp hc with rfl | hc
      · exact ⟨hb'.pos,hb'.le⟩
      · exact ⟨(hkept c hc).1,(hkept c hc).2.trans hg.grown⟩
    · exact (hb'.eof.resolve_left hne).2
    · dsimp only
      rw [hans,← hlow]
      by_cases hasks : r.s.Asks
      · have hopen : r.s.eof = uintMod - 1 := by
          by_contra hne
          have h1 := hended hne
          have h2 := hb.eof.resolve_left hne
          have h3 := hasks.1
          have h4 := hasks.2
          omega
        rw [if_pos hasks,if_pos hasks,if_pos hopen,List.append_nil]
        cases hi : r.s.inp with
        | nil =>
          rw [if_pos ⟨hasks,hi⟩] at heof
          have hne : t.eof ≠ uintMod - 1 := by
            have := hb.le
            have := hinp.mp hi
            omega
          rw [if_neg hne]
          rfl
        | cons b inp =>
          rw [if_neg fun h => List.cons_ne_nil b inp (hi.symm.trans h.2)] at heof
          rw [if_pos (heof.trans hopen),List.append_nil]
          have hdrop : w.drop (r.s.readidx - 1) = b :: inp := hb.rest.symm.trans hi
          have htake := take_head w (r.s.readidx - 1)
          rw [hdrop] at htake
          rw [← htake,List.map_append]
          rfl
      · rw [if_neg fun h => hasks h.1] at heof
        rw [if_neg hasks,if_neg hasks,List.append_nil,heof]
        rfl

/-- For every sequence of reads and moves of the cursor to places it has been at: the assertions hold, a read at a position delivers
the character there, and the input function has answered with the characters in turn and at most once with the end. -/
theorem cpgGetc_reads (hw : w.length < 2 ^ 31) {r : Reading σ}
    (h : Reach ReadStep (fun _ _ => True) (Reading.start w a) r) :
    (1 ≤ r.s.cur.i ∧ r.s.cur.i ≤ r.s.readidx ∧ r.s.readidx ≤ r.s.buflen ∧ r.s.cur.i ≤ r.s.eof) ∧
    (∃ s', cpgGetc r.s = some (s',w[r.s.cur.i - 1]?) ∧
      s'.cur.i = r.s.cur.i + if w[r.s.cur.i - 1]?.isSome then 1 else 0) ∧
    r.answers <+: w.map some ++ [none] := by
  obtain ⟨hb,-,hended,hans⟩ := h.inv (fun _ _ _ hi _ hn => hn.inv hw hi) (readInv_start w a)
  have hle := hb.le
  have hsmall := hb.small
  refine ⟨⟨hb.pos,hle,hb.room,?_⟩,?_,?_⟩
  · rcases hb.eof with he | ⟨he,-⟩
    · have := hb.small'
      omega
    · omega
  · obtain ⟨s',c,hget,hg⟩ := cpgGetc_total hb (Or.inl hw)
    have hhead : w[r.s.cur.i - 1]? = (ahead w r.s).head? := by rw [ahead,List.head?_drop]
    refine ⟨s',?_⟩
    cases c with
    | none =>
      rw [hhead,(hg.stop rfl).1]
      exact ⟨hget,congrArg Cursor.i (hg.stop rfl).2⟩
    | some b =>
      rw [hhead,(hg.char b rfl).1]
      exact ⟨hget,(hg.char b rfl).2⟩
  · rw [hans]
    by_cases he : r.s.eof = uintMod - 1
    · rw [if_pos he,List.append_nil]
      exact ((List.take_prefix _ w).map some).trans (List.prefix_append _ _)
    · rw [if_neg he,hended he,Nat.add_sub_cancel]
      exact ⟨[],by rw [List.append_nil,List.take_length]⟩

theorem cpgGetc_reads_again : ∃ s', cpgGetc (cpgInit [97] ()) = some (s',some 97) ∧
    ∃ s'', cpgGetc { s' with cur := ⟨1,1⟩ } = some (s'',some 97) := by
  have hget : cpgGetc (cpgInit [97] ()) = some (((cpgInit [97] ()).append 97 []).next,some 97) := rfl
  have h : Reach ReadStep (fun _ _ => True) (Reading.start [97] ()) _ :=
    .step (i := .setCur ⟨1,1⟩) (.step .start trivial (.getc hget)) trivial (.setCur (List.mem_cons_of_mem _ (List.mem_singleton_self _)))
  obtain ⟨-,⟨s'',hs'',-⟩,-⟩ := cpgGetc_reads (by decide) h
  exact ⟨_,hget,s'',hs''⟩

end Catlib.Peg
