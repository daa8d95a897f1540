import Catlib.Buffer.Memory

/-! # The ring buffer of ring.c

A ring holds a queue of bytes from `start` on, around the end of its memory. An input as long
as the memory does not fit the branch for overflow, which expects some old bytes to stay.
-/
namespace Catlib.Buffer

variable {α : Type*}

structure Ring (α : Type*) where
  alloc : ℕ
  data : List α
  start : ℕ
  len : ℕ

/-- The assertions of `CKRING`. -/
def Ring.Ck (r : Ring α) : Prop := 0 < r.alloc ∧ r.start < r.alloc ∧ r.len ≤ r.alloc

instance Ring.decidableCk (r : Ring α) : Decidable r.Ck := inferInstanceAs (Decidable (_ ∧ _))

def ringInit (d : List α) (l : ℕ) : Option (Ring α) := if l = 0 then none else some ⟨l,d,0,0⟩

def ringLast (r : Ring α) : ℕ :=
  let toend := r.alloc - r.start
  if r.len < toend then r.start + r.len else r.len - toend

/-- The copy of `ring_put` to the memory from `last` on, around the end where it has to. -/
def ringCopy (r : Ring α) (inp : List α) (last start len : ℕ) : Option (List α) :=
  let toend := r.alloc - last
  if last ≥ start ∧ toend < len then
    (memcpy r.data last inp 0 toend).bind fun d => memcpy d 0 inp toend (len - toend)
  else memcpy r.data last inp 0 len

/-- `ring_put` of `len` bytes from `inp`; without an input it only makes room. -/
def ringPut (r : Ring α) (inp : Option (List α)) (len : ℕ) (overwrite : Bool) : Option (ℕ × Ring α) :=
  if ¬r.Ck then none
  else
    let avail := r.alloc - r.len
    let len := if !overwrite && decide (len > avail) then avail else len
    match inp with
    | none => if len ≤ avail then some (len,{ r with len := r.len + len }) else none
    | some inp =>
      if len > r.alloc then
        if !overwrite then none
        else (memcpy r.data 0 inp (len - r.alloc) r.alloc).map fun d => (len,{ r with start := 0, len := r.alloc, data := d })
      else
        let last := ringLast r
        let ovfl := len - avail
        if len > avail ∧ ¬ovfl < r.len then none
        else
          let start :=
            if len > avail then if r.start < r.alloc - ovfl then r.start + ovfl else ovfl - (r.alloc - r.start) else r.start
          (ringCopy r inp last start len).map fun d =>
            (len,{ r with start := start, len := if r.alloc - r.len < len then r.alloc else r.len + len, data := d })

/-- `ring_get`: the number of bytes, the bytes that go to `out`, and the ring. -/
def ringGet (r : Ring α) (out : Bool) (len : ℕ) : Option (ℕ × List α × Ring α) :=
  if ¬r.Ck then none
  else
    let len := if len > r.len then r.len else len
    let toend := r.alloc - r.start
    let copied :=
      if !out then some []
      else if toend < len then (readMem r.data r.start toend).bind fun l => (readMem r.data 0 (len - toend)).map (l ++ ·)
      else readMem r.data r.start len
    let start := if toend < len then len - toend else if r.start + len = r.alloc then 0 else r.start + len
    copied.map fun l => (len,l,{ r with start := if r.len - len = 0 then 0 else start, len := r.len - len })

/-! ## The queue -/

/-- The bytes in the ring, the oldest first. -/
def Ring.bytes (r : Ring α) : List α := (r.data.rotate r.start).take r.len

/-- A ring with its memory, as every call leaves it. -/
structure Ring.Good (r : Ring α) : Prop where
  ck : r.Ck
  data : r.data.length = r.alloc

/-- Appending to a queue of a capacity: what fits, or everything at the cost of old bytes. -/
def queuePut (cap : ℕ) (q l : List α) (overwrite : Bool) : List α :=
  if overwrite then (q ++ l).drop ((q ++ l).length - cap) else q ++ l.take (cap - q.length)

variable {r r' : Ring α} {a i k n t x last start : ℕ} {l d : List α}

/-- A place in the memory, around the end. -/
def wrap (a x : ℕ) : ℕ := if x < a then x else x - a

theorem wrap_cases (a x : ℕ) : x < a ∧ wrap a x = x ∨ a ≤ x ∧ wrap a x = x - a := by
  rw [wrap]
  split
  · exact .inl ⟨‹_›,rfl⟩
  · exact .inr ⟨Nat.not_lt.mp ‹_›,rfl⟩

theorem wrap_lt (h : x < 2 * a) : wrap a x < a := by
  unfold wrap
  split <;> omega

theorem mod_eq_wrap (h : x < 2 * a) : x % a = wrap a x := by
  unfold wrap
  split
  · rename_i hx
    exact Nat.mod_eq_of_lt hx
  · rw [Nat.mod_eq_sub_mod (by omega),Nat.mod_eq_of_lt (by omega)]

theorem Ring.Good.bytes_length (h : r.Good) : r.bytes.length = r.len := by
  rw [Ring.bytes,List.length_take,List.length_rotate,h.data]
  exact min_eq_left h.ck.2.2

theorem Ring.Good.getElem?_bytes (h : r.Good) (hi : i < r.len) : r.bytes[i]? = r.data[wrap r.alloc (r.start + i)]? := by
  obtain ⟨h0,hs,hl⟩ := h.ck
  have hd := h.data
  rw [Ring.bytes,List.getElem?_take_of_lt hi,List.getElem?_rotate (by omega),hd,Nat.add_comm i,mod_eq_wrap (by omega)]

theorem Ring.Good.bytes_eq (h : r.Good) (hlen : l.length = r.len)
    (hl : ∀ i < r.len, r.data[wrap r.alloc (r.start + i)]? = l[i]?) : r.bytes = l := by
  apply List.ext_getElem?
  intro i
  by_cases hi : i < r.len
  · rw [h.getElem?_bytes hi,hl i hi]
  · rw [List.getElem?_eq_none (by rw [h.bytes_length]; omega),List.getElem?_eq_none (by omega)]

theorem ringLast_eq (h : r.Ck) : ringLast r = wrap r.alloc (r.start + r.len) := by
  obtain ⟨h0,hs,hl⟩ := h
  unfold ringLast wrap
  dsimp only
  split <;> split <;> omega

theorem ringCopy_spec (last start n : ℕ) (l : List α) (h : r.Good) (hn : n ≤ l.length) (hna : n ≤ r.alloc) (hlast : last < r.alloc)
    (hw : r.alloc < last + n → start ≤ last) : ∃ d, ringCopy r l last start n = some d ∧ d.length = r.alloc ∧
      ∀ t < r.alloc, d[wrap r.alloc (last + t)]? = if t < n then l[t]? else r.data[wrap r.alloc (last + t)]? := by
  have hd := h.data
  rw [ringCopy]
  by_cases hc : last ≥ start ∧ r.alloc - last < n
  · rw [if_pos hc]
    obtain ⟨d1,h1,hl1,hg1⟩ := memcpy_spec r.data last l 0 (r.alloc - last) (by lia) (by lia)
    obtain ⟨d2,h2,hl2,hg2⟩ := memcpy_spec d1 0 l (r.alloc - last) (n - (r.alloc - last)) (by lia) (by lia)
    refine ⟨d2,by rw [h1,Option.bind_some,h2],by lia,fun t ht => ?_⟩
    rw [hg2,hg1]
    unfold wrap
    by_cases hend : last + t < r.alloc
    · rw [if_pos hend,if_neg (by lia),if_pos (by lia),if_pos (by lia)]
      congr 1
      lia
    · rw [if_neg hend]
      by_cases htn : t < n
      · rw [if_pos (by lia),if_pos htn]
        congr 1
        lia
      · rw [if_neg (by lia),if_neg (by lia),if_neg htn]
  · rw [if_neg hc]
    obtain ⟨d1,h1,hl1,hg1⟩ := memcpy_spec r.data last l 0 n (by lia) (by lia)
    refine ⟨d1,h1,by lia,fun t ht => ?_⟩
    have hfit : last + n ≤ r.alloc := by
      by_contra hlt
      exact hc ⟨hw (by lia),by lia⟩
    rw [hg1]
    unfold wrap
    by_cases htn : t < n
    · rw [if_pos (show last + t < r.alloc by lia),if_pos (by lia),if_pos htn]
      congr 1
      lia
    · rw [if_neg htn,if_neg]
      split <;> lia

theorem put_bytes (s' m n : ℕ) (l : List α) (h : r.Good) (hm : m ≤ r.len) (hn : n ≤ l.length) (hmn : m + n ≤ r.alloc)
    (hs' : s' = wrap r.alloc (r.start + (r.len - m))) (hd : d.length = r.alloc)
    (hcopy : ∀ t < r.alloc, d[wrap r.alloc (ringLast r + t)]? =
      if t < n then l[t]? else r.data[wrap r.alloc (ringLast r + t)]?) :
    Ring.Good ⟨r.alloc,d,s',m + n⟩ ∧ Ring.bytes ⟨r.alloc,d,s',m + n⟩ = (r.bytes ++ l.take n).drop (r.len - m) := by
  obtain ⟨h0,hs,hl⟩ := h.ck
  have hgood : Ring.Good ⟨r.alloc,d,s',m + n⟩ := ⟨⟨h0,by rw [hs']; exact wrap_lt (by lia),hmn⟩,hd⟩
  refine ⟨hgood,hgood.bytes_eq ?_ fun i hi => ?_⟩
  · rw [List.length_drop,List.length_append,h.bytes_length,List.length_take]
    show r.len + min n l.length - (r.len - m) = m + n
    lia
  have hi : i < m + n := hi
  have hlast := ringLast_eq h.ck
  show d[wrap r.alloc (s' + i)]? = _
  rw [List.getElem?_drop]
  by_cases him : i < m
  · -- an old byte, outside the cells of the copy
    have hp : wrap r.alloc (s' + i) = wrap r.alloc (ringLast r + (r.alloc - m + i)) := by
      rw [hs',hlast]
      unfold wrap
      split <;> split <;> split <;> split <;> lia
    have hq : wrap r.alloc (ringLast r + (r.alloc - m + i)) = wrap r.alloc (r.start + (r.len - m + i)) := by
      rw [hlast]
      unfold wrap
      split <;> split <;> split <;> lia
    rw [hp,hcopy _ (by lia),if_neg (by lia),hq,List.getElem?_append_left (by rw [h.bytes_length]; lia),
      h.getElem?_bytes (by lia)]
  · have hp : wrap r.alloc (s' + i) = wrap r.alloc (ringLast r + (i - m)) := by
      rw [hs',hlast]
      unfold wrap
      split <;> split <;> split <;> split <;> lia
    rw [hp,hcopy _ (by lia),if_pos (by lia),List.getElem?_append_right (by rw [h.bytes_length]; lia),
      List.getElem?_take_of_lt (by rw [h.bytes_length]; lia),h.bytes_length]
    congr 1
    lia

/-- The input that no branch of `ring_put` is made for. -/
def Jams (r : Ring α) (l : List α) (overwrite : Bool) : Prop := overwrite = true ∧ l.length = r.alloc ∧ 0 < r.len

theorem ringPut_jams {ov : Bool} (h : r.Good) (hj : Jams r l ov) : ringPut r (some l) l.length ov = none := by
  obtain ⟨rfl,hl,hlen⟩ := hj
  obtain ⟨h0,hs,hle⟩ := h.ck
  rw [ringPut,if_neg (not_not.2 h.ck)]
  simp only [Bool.not_true, Bool.false_and, Bool.false_eq_true, if_false]
  rw [if_neg (by omega),if_pos (by omega)]

theorem ringPut_spec {ov : Bool} (h : r.Good) (hj : ¬Jams r l ov) : ∃ r', ringPut r (some l) l.length ov =
      some (if ov then l.length else min l.length (r.alloc - r.len),r') ∧
    r'.Good ∧ r'.alloc = r.alloc ∧ r'.bytes = queuePut r.alloc r.bytes l ov := by
  obtain ⟨h0,hs,hle⟩ := h.ck
  have hb := h.bytes_length
  have hlast := ringLast_eq h.ck
  rw [ringPut,if_neg (not_not.2 h.ck)]
  cases ov with
  | false =>
    -- at most the room that is left is taken
    have hmin : (if (!false && decide (l.length > r.alloc - r.len)) = true then r.alloc - r.len else l.length) =
        min l.length (r.alloc - r.len) := by
      simp only [Bool.not_false, Bool.true_and, decide_eq_true_eq]
      split <;> lia
    simp only [hmin]
    generalize hn : min l.length (r.alloc - r.len) = n
    rw [if_neg (by lia),if_neg (by lia),if_neg (by lia)]
    obtain ⟨d,hd,hdl,hcopy⟩ := ringCopy_spec (ringLast r) r.start n l h (by lia) (by lia)
      (by rw [hlast]; exact wrap_lt (by lia)) (by rw [hlast]; unfold wrap; split <;> lia)
    obtain ⟨hgood,hbytes⟩ := put_bytes r.start r.len n l h (le_refl _) (by lia) (by lia)
      (by unfold wrap; split <;> lia) hdl hcopy
    refine ⟨⟨r.alloc,d,r.start,r.len + n⟩,?_,hgood,rfl,?_⟩
    · rw [hd,if_neg (by lia)]
      rfl
    · rw [hbytes,queuePut,if_neg (by decide),Nat.sub_self,List.drop_zero,hb]
      congr 1
      rw [← hn,List.take_eq_take_iff]
      lia
  | true =>
    simp only [Bool.not_true, Bool.false_and, Bool.false_eq_true, if_false]
    by_cases hbig : l.length > r.alloc
    · -- only the end of the input is kept
      rw [if_pos hbig]
      obtain ⟨d,hd,hdl,hg⟩ := memcpy_spec r.data 0 l (l.length - r.alloc) r.alloc (by lia) (by rw [h.data]; lia)
      have hgood : Ring.Good ⟨r.alloc,d,0,r.alloc⟩ := ⟨⟨h0,h0,le_refl _⟩,hdl.trans h.data⟩
      refine ⟨⟨r.alloc,d,0,r.alloc⟩,by rw [hd]; rfl,hgood,rfl,?_⟩
      rw [queuePut,if_pos rfl]
      refine hgood.bytes_eq ?_ fun i hi => ?_
      · rw [List.length_drop,List.length_append]
        show r.bytes.length + l.length - (r.bytes.length + l.length - r.alloc) = r.alloc
        lia
      · have hi : i < r.alloc := hi
        show d[wrap r.alloc (0 + i)]? = _
        rw [wrap,if_pos (by lia),hg,if_pos (by lia),List.getElem?_drop,List.length_append,
          List.getElem?_append_right (by lia)]
        congr 1
        lia
    · rw [if_neg hbig]
      have hfew : ¬(l.length = r.alloc ∧ 0 < r.len) := fun hc => hj ⟨rfl,hc⟩
      rw [if_neg (by lia)]
      generalize hm : min r.len (r.alloc - l.length) = m
      have hstart : (if l.length > r.alloc - r.len then
            if r.start < r.alloc - (l.length - (r.alloc - r.len)) then r.start + (l.length - (r.alloc - r.len))
            else l.length - (r.alloc - r.len) - (r.alloc - r.start)
          else r.start) = wrap r.alloc (r.start + (r.len - m)) := by
        unfold wrap
        split
        · split <;> split <;> lia
        · split <;> lia
      rw [hstart]
      obtain ⟨d,hd,hdl,hcopy⟩ := ringCopy_spec (ringLast r) (wrap r.alloc (r.start + (r.len - m))) l.length l h (le_refl _) (by lia) (by rw [hlast]; exact wrap_lt (by lia))
        (by rw [hlast]; unfold wrap; split <;> split <;> lia)
      obtain ⟨hgood,hbytes⟩ := put_bytes (wrap r.alloc (r.start + (r.len - m))) m l.length l h
        (by lia) (le_refl _) (by lia) rfl hdl hcopy
      refine ⟨⟨r.alloc,d,wrap r.alloc (r.start + (r.len - m)),m + l.length⟩,?_,hgood,rfl,?_⟩
      · rw [hd]
        have hlen : (if r.alloc - r.len < l.length then r.alloc else r.len + l.length) = m + l.length := by
          split <;> lia
        rw [hlen]
        rfl
      · rw [hbytes,queuePut,if_pos rfl,List.take_length,List.length_append,hb]
        congr 1
        lia

theorem ringGet_copied (h : r.Good) (hn : n ≤ r.len) :
    (if r.alloc - r.start < n then
        (readMem r.data r.start (r.alloc - r.start)).bind fun l => (readMem r.data 0 (n - (r.alloc - r.start))).map (l ++ ·)
      else readMem r.data r.start n) = some (r.bytes.take n) := by
  obtain ⟨h0,hs,hle⟩ := h.ck
  have hd := h.data
  have hrot : r.bytes = (r.data.drop r.start ++ r.data.take r.start).take r.len := by
    rw [Ring.bytes,List.rotate_eq_drop_append_take (by lia)]
  have hdrop : (r.data.drop r.start).length = r.alloc - r.start := by
    rw [List.length_drop,hd]
  rw [hrot,List.take_take,min_eq_left hn,List.take_append,hdrop]
  split
  · have hall : (r.data.drop r.start).take (r.alloc - r.start) = r.data.drop r.start := List.take_of_length_le (by lia)
    have hall' : (r.data.drop r.start).take n = r.data.drop r.start := List.take_of_length_le (by lia)
    have hfirst : (r.data.take r.start).take (n - (r.alloc - r.start)) = r.data.take (n - (r.alloc - r.start)) := by
      rw [List.take_take,min_eq_left (by lia)]
    rw [readMem_some (by lia),Option.bind_some,readMem_some (by lia),Option.map_some,List.drop_zero,hall,hall',hfirst]
  · rw [readMem_some (by lia),show n - (r.alloc - r.start) = 0 by lia,List.take_zero,List.append_nil]

theorem ringGet_spec (h : r.Good) (out : Bool) (len : ℕ) : ∃ r', ringGet r out len =
      some (min len r.len,if out then r.bytes.take len else [],r') ∧
    r'.Good ∧ r'.alloc = r.alloc ∧ r'.bytes = r.bytes.drop len := by
  obtain ⟨h0,hs,hle⟩ := h.ck
  have hmin : (if len > r.len then r.len else len) = min len r.len := by
    split <;> lia
  rw [ringGet,if_neg (not_not.2 h.ck)]
  simp only [hmin]
  have htake : r.bytes.take len = r.bytes.take (min len r.len) := by
    rw [List.take_eq_take_iff,h.bytes_length]
    lia
  have hdrop : r.bytes.drop len = r.bytes.drop (min len r.len) := by
    rcases le_total len r.len with hl | hl
    · rw [min_eq_left hl]
    · rw [min_eq_right hl,List.drop_eq_nil_of_le (by rw [h.bytes_length]; exact hl),
        List.drop_eq_nil_of_le (by rw [h.bytes_length])]
  rw [htake,hdrop]
  have hn : min len r.len ≤ r.len := min_le_right _ _
  generalize min len r.len = n at hn
  have hcopied := ringGet_copied h hn
  generalize hst : (if r.len - n = 0 then 0
    else if r.alloc - r.start < n then n - (r.alloc - r.start) else if r.start + n = r.alloc then 0 else r.start + n) = start
  have hgood : Ring.Good ⟨r.alloc,r.data,start,r.len - n⟩ := by
    refine ⟨⟨h0,?_,by show r.len - n ≤ r.alloc; lia⟩,h.data⟩
    show start < r.alloc
    rw [← hst]
    split
    · exact h0
    split
    · lia
    split <;> lia
  refine ⟨⟨r.alloc,r.data,start,r.len - n⟩,?_,hgood,rfl,?_⟩
  · cases out with
    | false =>
      rw [← hst]
      rfl
    | true =>
      simp only [Bool.not_true, Bool.false_eq_true, if_false, if_true]
      rw [hcopied,Option.map_some]
  · refine hgood.bytes_eq ?_ fun i hi => ?_
    · rw [List.length_drop,h.bytes_length]
    · have hi : i < r.len - n := hi
      show r.data[wrap r.alloc (start + i)]? = _
      rw [List.getElem?_drop,h.getElem?_bytes (by lia)]
      congr 1
      rw [← hst,if_neg (by lia)]
      unfold wrap
      split
      · split <;> split <;> lia
      split
      · split <;> split <;> lia
      · split <;> split <;> lia

/-! ## Runs -/

inductive RingOp (α : Type*)
  | put (l : List α) (overwrite : Bool)
  | get (out : Bool) (len : ℕ)

/-- A call on the ring: what it returns, what it puts out, the ring. -/
def ringStep (r : Ring α) : RingOp α → Option (ℕ × List α × Ring α)
  | .put l ov => (ringPut r (some l) l.length ov).map fun p => (p.1,[],p.2)
  | .get out len => ringGet r out len

/-- The same call on a queue of a capacity. -/
def queueStep (cap : ℕ) (q : List α) : RingOp α → ℕ × List α × List α
  | .put l ov => (if ov then l.length else min l.length (cap - q.length),[],queuePut cap q l ov)
  | .get out len => (min len q.length,if out then q.take len else [],q.drop len)

def ringRun : List (RingOp α) → Ring α → Option (List (ℕ × List α) × Ring α)
  | [], r => some ([],r)
  | op :: ops, r => (ringStep r op).bind fun p => (ringRun ops p.2.2).map fun q => ((p.1,p.2.1) :: q.1,q.2)

def queueRun (cap : ℕ) : List (RingOp α) → List α → List (ℕ × List α) × List α
  | [], q => ([],q)
  | op :: ops, q =>
    let p := queueStep cap q op
    let s := queueRun cap ops p.2.2
    ((p.1,p.2.1) :: s.1,s.2)

/-- No call puts, with overwriting, exactly as many bytes as the capacity on a queue that is not
empty. -/
def Fits (cap : ℕ) : List (RingOp α) → List α → Prop
  | [], _ => True
  | op :: ops, q =>
    (∀ l, op = .put l true → l.length = cap → q = []) ∧ Fits cap ops (queueStep cap q op).2.2

theorem ringStep_put (h : r.Good) (l : List α) (ov : Bool) (hj : ¬Jams r l ov) : ∃ r', ringStep r (.put l ov) =
      some ((queueStep r.alloc r.bytes (.put l ov)).1,(queueStep r.alloc r.bytes (.put l ov)).2.1,r') ∧
    r'.Good ∧ r'.alloc = r.alloc ∧ r'.bytes = (queueStep r.alloc r.bytes (.put l ov)).2.2 := by
  obtain ⟨r',hr,hg,ha,hb⟩ := ringPut_spec h hj
  refine ⟨r',?_,hg,ha,hb⟩
  rw [ringStep,hr,queueStep,h.bytes_length]
  rfl

theorem ringStep_get (h : r.Good) (out : Bool) (len : ℕ) : ∃ r', ringStep r (.get out len) =
      some ((queueStep r.alloc r.bytes (.get out len)).1,(queueStep r.alloc r.bytes (.get out len)).2.1,r') ∧
    r'.Good ∧ r'.alloc = r.alloc ∧ r'.bytes = (queueStep r.alloc r.bytes (.get out len)).2.2 := by
  obtain ⟨r',hr,hg,ha,hb⟩ := ringGet_spec h out len
  refine ⟨r',?_,hg,ha,hb⟩
  rw [ringStep,hr,queueStep,h.bytes_length]

theorem ringRun_spec (ops : List (RingOp α)) (h : r.Good) :
    (Fits r.alloc ops r.bytes → ∃ r', ringRun ops r = some ((queueRun r.alloc ops r.bytes).1,r') ∧
      r'.bytes = (queueRun r.alloc ops r.bytes).2) ∧
    ((∃ p, ringRun ops r = some p) → Fits r.alloc ops r.bytes) := by
  induction ops generalizing r with
  | nil => exact ⟨fun _ => ⟨r,rfl,rfl⟩,fun _ => trivial⟩
  | cons op ops ih =>
    -- a step that does not jam, then the rest
    have hstep : ∀ r', ringStep r op = some ((queueStep r.alloc r.bytes op).1,(queueStep r.alloc r.bytes op).2.1,r') →
        r'.Good → r'.alloc = r.alloc → r'.bytes = (queueStep r.alloc r.bytes op).2.2 →
        (Fits r.alloc ops (queueStep r.alloc r.bytes op).2.2 → ∃ r', ringRun (op :: ops) r =
            some ((queueRun r.alloc (op :: ops) r.bytes).1,r') ∧ r'.bytes = (queueRun r.alloc (op :: ops) r.bytes).2) ∧
          ((∃ p, ringRun (op :: ops) r = some p) → Fits r.alloc ops (queueStep r.alloc r.bytes op).2.2) := by
      intro r' hr hg ha hb
      obtain ⟨h1,h2⟩ := ih hg
      rw [ha,hb] at h1 h2
      rw [ringRun,hr,Option.bind_some]
      constructor
      · intro hf
        obtain ⟨r2,hr2,hb2⟩ := h1 hf
        exact ⟨r2,by rw [hr2]; rfl,hb2⟩
      · rintro ⟨p,hp⟩
        obtain ⟨q,hq,-⟩ := Option.map_eq_some_iff.1 hp
        exact h2 ⟨q,hq⟩
    cases op with
    | get out len =>
      obtain ⟨r',hr,hg,ha,hb⟩ := ringStep_get h out len
      obtain ⟨h1,h2⟩ := hstep r' hr hg ha hb
      exact ⟨fun hf => h1 hf.2,fun hp => ⟨nofun,h2 hp⟩⟩
    | put l ov =>
      by_cases hj : Jams r l ov
      · refine ⟨fun hf => ?_,fun ⟨p,hp⟩ => ?_⟩
        · obtain ⟨rfl,hl,hlen⟩ := hj
          have hnil := hf.1 l rfl hl
          rw [← h.bytes_length,hnil] at hlen
          cases hlen
        · rw [ringRun,ringStep,ringPut_jams h hj] at hp
          cases hp
      · obtain ⟨r',hr,hg,ha,hb⟩ := ringStep_put h l ov hj
        obtain ⟨h1,h2⟩ := hstep r' hr hg ha hb
        refine ⟨fun hf => h1 hf.2,fun hp => ⟨fun l' hop hl' => ?_,h2 hp⟩⟩
        cases hop
        by_contra hne
        exact hj ⟨rfl,hl',by rw [← h.bytes_length]; exact List.length_pos_iff.2 hne⟩

/-- An initialised ring is a queue of its capacity, for every sequence of calls that the ring
survives; and these are the sequences without a put as long as the memory onto old bytes. -/
theorem ringRun_queue (ops : List (RingOp α)) (d : List α) (hd : d ≠ []) :
    (∃ r r', ringInit d d.length = some r ∧ ringRun ops r = some ((queueRun d.length ops []).1,r') ∧
      r'.bytes = (queueRun d.length ops []).2) ↔ Fits d.length ops [] := by
  have hpos : 0 < d.length := List.length_pos_iff.2 hd
  have hinit : ringInit d d.length = some ⟨d.length,d,0,0⟩ := if_neg (by omega)
  have hgood : Ring.Good ⟨d.length,d,0,0⟩ := ⟨⟨hpos,hpos,Nat.zero_le _⟩,rfl⟩
  obtain ⟨h1,h2⟩ := ringRun_spec ops hgood
  have hempty : Ring.bytes ⟨d.length,d,0,0⟩ = [] := List.take_zero
  rw [hempty] at h1 h2
  constructor
  · rintro ⟨r,r',hr,hrun,-⟩
    rw [hinit] at hr
    cases hr
    exact h2 ⟨_,hrun⟩
  · intro hf
    obtain ⟨r',hr',hb⟩ := h1 hf
    exact ⟨_,r',hinit,hr',hb⟩

theorem ringRun_queue_two : (∃ r r', ringInit [0,0] 2 = some r ∧
      ringRun [.put [1,2,3] false,.get true 1,.put [4] true] r =
        some ((queueRun 2 [.put [1,2,3] false,.get true 1,.put [4] true] []).1,r') ∧
      r'.bytes = (queueRun 2 [.put [1,2,3] false,.get true 1,.put [4] true] []).2) ↔
    Fits 2 [.put [1,2,3] false,.get true 1,.put [4] true] [] := ringRun_queue _ [0,0] (by decide)

/-- Two bytes onto one old byte in a ring of two: the assertion on the overflow fails. -/
theorem ringRun_jams : ¬∃ r r', ringInit [0,0] 2 = some r ∧
    ringRun [.put [1] false,.put [2,3] true] r = some ((queueRun 2 [.put [1] false,.put [2,3] true] []).1,r') ∧
      r'.bytes = (queueRun 2 [.put [1] false,.put [2,3] true] []).2 := by
  rintro ⟨r,r',hr,hrun,-⟩
  cases hr
  cases hrun

end Catlib.Buffer
