import Mathlib.Tactic.Abel
import Rpcsx.Orbis.Blockpool.Basic
import Rpcsx.Rx.MemoryTable.Translate
import Rpcsx.Rx.MemoryTable.Walk

/-!
# What a pool owns

The physical bytes of a pool are those of its free blocks, of its reserved pages and those behind its
committed ranges, counted with multiplicity (`owned`). One specification per operation says how
`owned` changes; `Inv` is what every operation needs and keeps.

Two operations keep it only under a condition: `reservePage` takes a page from the last free block
without asking whether that is large enough (`PageReady`; it is, after a move, if the page was in one piece), and `commit` records the right address
only if the last block it takes is used up (`ExactFit`). A third one, `decommit`, must not leave the
tail of an area behind; this is in the next module.
-/

namespace Rpcsx.Orbis

open Lib Rx AddressRange List Option

def bytesOf (l : List AddressRange) : Multiset Nat :=
  (l.map fun b => bytes b.beginAddress b.endAddress).sum

@[simp] theorem bytesOf_nil : bytesOf [] = 0 := rfl

@[simp] theorem bytesOf_cons (b : AddressRange) (l : List AddressRange) :
    bytesOf (b :: l) = bytes b.beginAddress b.endAddress + bytesOf l := by simp [bytesOf]

@[simp] theorem bytesOf_append (l l' : List AddressRange) : bytesOf (l ++ l') = bytesOf l + bytesOf l' := by
  simp [bytesOf]

theorem size_of_valid {r : AddressRange} (h : r.beginAddress < r.endAddress) :
    r.size = r.endAddress - r.beginAddress := u64Sub_of_le h.le

theorem sum_size_eq {l : List AddressRange} (h : ∀ b ∈ l, b.beginAddress < b.endAddress) :
    (l.map size).sum = (bytesOf l).card := by
  induction l with
  | nil => rfl
  | cons b l ih =>
    rw [map_cons, sum_cons, ih fun x hx => h x (mem_cons_of_mem b hx),
      size_of_valid (h b mem_cons_self), bytesOf_cons, Multiset.card_add, card_bytes]

namespace PooledMemoryResource

/-! ## Adding a block -/

section AddFreeBlock

variable {r : AddressRange}

section

variable {before after : List AddressRange}

/-- The range is put in, or the block before it is extended. -/
theorem joinPrev_cases (before after : List AddressRange) : joinPrev before r after = before ++ r :: after ∨
    ∃ init prev, before = init ++ [prev] ∧ prev.endAddress = r.beginAddress ∧
      joinPrev before r after = init ++ .fromBeginEnd prev.beginAddress r.endAddress :: after := by
  unfold joinPrev
  rcases eq_nil_or_concat before with rfl | ⟨init, prev, rfl⟩
  · exact .inl rfl
  simp only [concat_eq_append, getLast?_append, getLast?_singleton, some_or, dropLast_concat]
  split
  · next heq => exact .inr ⟨init, prev, rfl, heq, rfl⟩
  · exact .inl rfl

theorem bytesOf_joinPrev (hr : r.beginAddress < r.endAddress) (hvalid : ∀ b ∈ before, b.beginAddress < b.endAddress) :
    bytesOf (joinPrev before r after) = bytesOf before + bytes r.beginAddress r.endAddress + bytesOf after := by
  rcases joinPrev_cases (r := r) before after with heq | ⟨init, prev, rfl, hend, heq⟩
  · rw [heq]
    simp only [bytesOf_append, bytesOf_cons]
    abel
  have hprev := hvalid prev (by simp)
  have hglue : bytes prev.beginAddress r.endAddress =
      bytes prev.beginAddress prev.endAddress + bytes r.beginAddress r.endAddress := by
    rw [hend, bytes_add_bytes (by omega) hr.le]
  rw [heq]
  simp only [fromBeginEnd, bytesOf_append, bytesOf_cons, bytesOf_nil, hglue]
  abel

theorem joinPrev_valid (hr : r.beginAddress < r.endAddress) (hb : ∀ b ∈ before, b.beginAddress < b.endAddress)
    (ha : ∀ b ∈ after, b.beginAddress < b.endAddress) :
    ∀ b ∈ joinPrev before r after, b.beginAddress < b.endAddress := by
  rcases joinPrev_cases (r := r) before after with heq | ⟨init, prev, rfl, hend, heq⟩
  · rw [heq]
    exact forall_mem_append.mpr ⟨hb, forall_mem_cons.mpr ⟨hr, ha⟩⟩
  obtain ⟨hinit, hprev⟩ := forall_mem_append.mp hb
  have hprev := hprev prev mem_cons_self
  have hjoined : prev.beginAddress < r.endAddress := by omega
  rw [heq]
  exact forall_mem_append.mpr ⟨hinit, forall_mem_cons.mpr ⟨hjoined, ha⟩⟩

end

/-- Adding a block adds its bytes, whatever it is merged with. -/
theorem insertBlock_spec (hr : r.beginAddress < r.endAddress) {l : List AddressRange}
    (hvalid : ∀ b ∈ l, b.beginAddress < b.endAddress) :
    bytesOf (insertBlock l r) = bytesOf l + bytes r.beginAddress r.endAddress ∧
    ∀ b ∈ insertBlock l r, b.beginAddress < b.endAddress := by
  have hl : l.takeWhile (fun b => decide (b.beginAddress ≤ r.beginAddress)) ++
      l.dropWhile (fun b => decide (b.beginAddress ≤ r.beginAddress)) = l :=
    takeWhile_append_dropWhile
  unfold insertBlock
  generalize l.takeWhile (fun b => decide (b.beginAddress ≤ r.beginAddress)) = before at hl ⊢
  generalize l.dropWhile (fun b => decide (b.beginAddress ≤ r.beginAddress)) = after at hl ⊢
  subst hl
  have hb : ∀ b ∈ before, b.beginAddress < b.endAddress := fun b h => hvalid b (by simp [h])
  cases after with
  | nil =>
    rw [bytesOf_joinPrev hr hb]
    exact ⟨by simp, joinPrev_valid hr hb (by simp)⟩
  | cons it rest =>
    have hit := hvalid it (by simp)
    have ha : ∀ b ∈ it :: rest, b.beginAddress < b.endAddress := fun b h =>
      hvalid b (mem_append_right _ h)
    dsimp only
    split
    · next heq =>
      have hglue : bytes r.beginAddress it.endAddress =
          bytes r.beginAddress r.endAddress + bytes it.beginAddress it.endAddress := by
        rw [← heq, bytes_add_bytes hr.le (by omega)]
      constructor
      · simp only [fromBeginEnd, bytesOf_append, bytesOf_cons, hglue]
        abel
      intro b hmem
      simp only [mem_append, mem_cons, fromBeginEnd] at hmem
      rcases hmem with hmem | rfl | hmem
      · exact hb b hmem
      · show r.beginAddress < it.endAddress
        omega
      exact ha b (mem_cons_of_mem it hmem)
    constructor
    · rw [bytesOf_joinPrev hr hb, bytesOf_append]
      abel
    exact joinPrev_valid hr hb ha

end AddFreeBlock

/-! ## The invariant -/

variable {p p' other : PooledMemoryResource}

def free (p : PooledMemoryResource) : Multiset Nat := bytesOf p.freeBlocks

def reserved (p : PooledMemoryResource) : Multiset Nat :=
  (p.reservedPages.map fun a => bytes a (a + dmem.kPageSize)).sum

def backing (p : PooledMemoryResource) : Multiset Nat :=
  p.usedBlocks.translated CommitedBlock.pmemAddress

def owned (p : PooledMemoryResource) : Multiset Nat := p.free + p.reserved + p.backing

/-- What holds of a pool between two operations, and after each turn of their loops. -/
structure Inv (p : PooledMemoryResource) : Prop where
  wf : p.usedBlocks.WF
  valid : ∀ b ∈ p.freeBlocks, b.beginAddress < b.endAddress
  used_eq : p.used = p.usedBlocks.addresses.card + p.reservedPages.length * dmem.kPageSize
  total_eq : p.total = p.used + p.free.card
  total_lt : p.total < 0x10000000000000000
  owned_lt : ∀ x ∈ p.owned, x + 1 < 0x10000000000000000

theorem inv_empty : Inv empty where
  wf := rfl
  valid := by simp [empty]
  used_eq := rfl
  total_eq := rfl
  total_lt := by decide
  owned_lt := by
    intro x hx
    cases hx

theorem Inv.calcUsed_eq (h : p.Inv) : p.calcUsed = p.used := by
  have hsizes : (p.usedBlocks.areas.map fun x => x.1.size).sum = p.usedBlocks.addresses.card := by
    rw [MemoryTableWithPayload.card_addresses]
    refine congrArg List.sum (map_congr_left fun x hx => ?_)
    exact size_of_valid (isValid_iff.mp (h.wf.areas_valid hx))
  have htotal := h.total_eq
  have hlt := h.total_lt
  rw [calcUsed, hsizes, ← h.used_eq, u64_of_lt (by omega)]

/-- The assertions hold. -/
theorem Inv.checked_eq (h : p.Inv) : p.checked = some p := by
  have htotal := h.total_eq
  have hlt := h.total_lt
  have hfree : p.calcFree = p.free.card := by
    rw [calcFree, sum_size_eq h.valid]
    exact u64_of_lt (show p.free.card < _ by omega)
  rw [checked, if_pos ⟨h.calcUsed_eq, by rw [hfree, u64_of_lt (by omega)]; omega⟩]

theorem Inv.avail_eq (h : p.Inv) : u64Sub p.total p.used = p.free.card := by
  have := h.total_eq
  rw [u64Sub_of_le (by omega)]
  omega

theorem Inv.block_lt (h : p.Inv) {b : AddressRange} (hb : b ∈ p.freeBlocks) : b.endAddress < 2 ^ 64 := by
  have hvalid := h.valid b hb
  have hlast : b.endAddress - 1 ∈ p.owned := by
    refine Multiset.mem_add.mpr (Or.inl (Multiset.mem_add.mpr (Or.inl ?_)))
    exact mem_sum_map.mpr ⟨b, hb, mem_bytes.mpr ⟨by omega, by omega⟩⟩
  have := h.owned_lt _ hlast
  omega

structure SameUse (p p' : PooledMemoryResource) : Prop where
  used : p'.used = p.used
  usedBlocks : p'.usedBlocks = p.usedBlocks
  reservedPages : p'.reservedPages = p.reservedPages

theorem SameUse.trans {p'' : PooledMemoryResource} (h : SameUse p p') (h' : SameUse p' p'') : SameUse p p'' :=
  ⟨h'.used.trans h.used, h'.usedBlocks.trans h.usedBlocks,
    h'.reservedPages.trans h.reservedPages⟩

theorem SameUse.owned_eq (h : SameUse p p') : p'.owned + p.free = p.owned + p'.free := by
  simp only [owned, reserved, backing, h.usedBlocks, h.reservedPages]
  abel

/-- The invariant of a pool in which only free memory came or went. -/
theorem Inv.of_sameUse (h : p.Inv) (hsame : SameUse p p')
    (hvalid : ∀ b ∈ p'.freeBlocks, b.beginAddress < b.endAddress)
    (htotal : p'.total = p'.used + p'.free.card) (hlt : p'.total < 2 ^ 64)
    (hfree : ∀ x ∈ p'.free, x + 1 < 2 ^ 64) : p'.Inv where
  wf := by rw [hsame.usedBlocks]; exact h.wf
  valid := hvalid
  used_eq := by rw [hsame.used, hsame.usedBlocks, hsame.reservedPages]; exact h.used_eq
  total_eq := htotal
  total_lt := hlt
  owned_lt := by
    intro x hx
    simp only [owned, reserved, backing, hsame.usedBlocks, hsame.reservedPages,
      Multiset.mem_add] at hx
    rcases hx with (hx | hx) | hx
    · exact hfree x hx
    · exact h.owned_lt x (by simp only [owned, reserved, Multiset.mem_add]; exact .inl (.inr hx))
    · exact h.owned_lt x (by simp only [owned, backing, Multiset.mem_add]; exact .inr hx)

/-! ## `expand` and the control pages -/

theorem Inv.expand_spec (h : p.Inv) {r : AddressRange} (hr : r.beginAddress < r.endAddress)
    (hlt : r.endAddress < 2 ^ 64)
    (htotal : p.total + (r.endAddress - r.beginAddress) < 2 ^ 64) :
    ∃ p', p.expand r = some p' ∧ p'.Inv ∧ SameUse p p' ∧ p'.free = p.free + bytes r.beginAddress r.endAddress ∧
      p'.total = p.total + (r.endAddress - r.beginAddress) := by
  obtain ⟨hbytes, hvalid⟩ := insertBlock_spec hr h.valid
  let q : PooledMemoryResource := { p.addFreeBlock r with total := u64 (p.total + r.size) }
  have hqtotal : q.total = p.total + (r.endAddress - r.beginAddress) := by
    show u64 (p.total + r.size) = _
    rw [size_of_valid hr, u64_of_lt htotal]
  have hqfree : q.free = p.free + bytes r.beginAddress r.endAddress := hbytes
  have hsame : SameUse p q := ⟨rfl, rfl, rfl⟩
  have hq : q.Inv := by
    refine h.of_sameUse hsame hvalid ?_ (by omega) fun x hx => ?_
    · have hold := h.total_eq
      rw [hqtotal, hqfree, Multiset.card_add, card_bytes, hsame.used]
      omega
    rw [hqfree, Multiset.mem_add, mem_bytes] at hx
    rcases hx with hx | hx
    · exact h.owned_lt x (by simp only [owned, Multiset.mem_add]; exact .inl (.inl hx))
    · omega
  exact ⟨q, hq.checked_eq, hq, hsame, hqfree, hqtotal⟩

def PageReady (p : PooledMemoryResource) : Prop :=
  ∀ b, p.freeBlocks.getLast? = some b → dmem.kPageSize ≤ b.endAddress - b.beginAddress

/-- Blocks of which each one ends where the next one begins. -/
def Joined (blocks : List AddressRange) : Prop := blocks.IsChain fun b b' => b.endAddress = b'.beginAddress

/-- The page that a move takes from the end of a free list is in one piece: it is the begin of the last block, or
the last blocks are joined and have exactly a page. -/
def PageAhead (blocks : List AddressRange) : Prop :=
  (∃ b, blocks.getLast? = some b ∧ dmem.kPageSize ≤ b.size) ∨
    ∃ init l, blocks = init ++ l ∧ Joined l ∧ (bytesOf l).card = dmem.kPageSize

theorem exists_getLast_of_card_pos {l : List AddressRange} (h : 0 < (bytesOf l).card) :
    ∃ init b, l = init ++ [b] := by
  rcases eq_nil_or_concat l with rfl | ⟨init, b, rfl⟩
  · simp at h
  · exact ⟨init, b, by simp⟩

/-- **`reservePage`** moves a page from the free blocks to the reserved pages. -/
theorem Inv.reservePage_spec (h : p.Inv) (hready : dmem.kPageSize ≤ p.free.card → p.PageReady) :
    ∃ p' r, p.reservePage = some (p', r) ∧ p'.Inv ∧ p'.owned = p.owned ∧ p'.usedBlocks = p.usedBlocks := by
  unfold reservePage
  rw [h.avail_eq]
  by_cases havail : p.free.card < dmem.kPageSize
  · exact ⟨p, .error .INVAL, by rw [if_pos havail], h, rfl, rfl⟩
  have hK : dmem.kPageSize = 0x10000 := rfl
  obtain ⟨init, b, hlist⟩ : ∃ init b, p.freeBlocks = init ++ [b] :=
    exists_getLast_of_card_pos (show 0 < p.free.card by omega)
  have hbmem : b ∈ p.freeBlocks := by simp [hlist]
  have hbvalid := h.valid b hbmem
  have hblt := h.block_lt hbmem
  have hpage := hready (not_lt.mp havail) b (by simp [hlist])
  have hend : u64 (b.beginAddress + dmem.kPageSize) = b.beginAddress + dmem.kPageSize :=
    u64_of_lt (by omega)
  have htotal := h.total_eq
  have htlt := h.total_lt
  have hused : u64 (p.used + dmem.kPageSize) = p.used + dmem.kPageSize := u64_of_lt (by omega)
  rw [if_neg havail, hlist]
  simp only [getLast?_append, getLast?_singleton, some_or, bind_some,
    dropLast_concat, hend, hused]
  -- the block without its first page
  obtain ⟨rest, hrest, hrestBytes, hrestValid⟩ : ∃ rest,
      (if b.endAddress = b.beginAddress + dmem.kPageSize then init
        else init ++ [.fromBeginEnd (b.beginAddress + dmem.kPageSize) b.endAddress]) = rest ∧
      p.free = bytesOf rest + bytes b.beginAddress (b.beginAddress + dmem.kPageSize) ∧
      ∀ x ∈ rest, x.beginAddress < x.endAddress := by
    have hinit : ∀ x ∈ init, x.beginAddress < x.endAddress := fun x hx =>
      h.valid x (by simp [hlist, hx])
    by_cases heq : b.endAddress = b.beginAddress + dmem.kPageSize
    · refine ⟨init, if_pos heq, ?_, hinit⟩
      rw [free, hlist, bytesOf_append, bytesOf_cons, bytesOf_nil, add_zero, ← heq]
    refine ⟨_, if_neg heq, ?_, ?_⟩
    · rw [free, hlist]
      simp only [bytesOf_append, bytesOf_cons, bytesOf_nil, add_zero, fromBeginEnd]
      rw [← bytes_add_bytes (b := b.beginAddress) (m := b.beginAddress + dmem.kPageSize)
        (e := b.endAddress) (by omega) (by omega)]
      abel
    intro x hx
    rcases mem_append.mp hx with hx | hx
    · exact hinit x hx
    rw [mem_singleton.mp hx]
    show b.beginAddress + dmem.kPageSize < b.endAddress
    omega
  rw [hrest]
  let q : PooledMemoryResource := { p with
    used := p.used + dmem.kPageSize
    freeBlocks := rest
    reservedPages := p.reservedPages ++ [b.beginAddress] }
  have howned : q.owned = p.owned := by
    have hres : q.reserved = p.reserved + bytes b.beginAddress (b.beginAddress + dmem.kPageSize) := by
      simp [q, reserved]
    rw [owned, owned, hres, hrestBytes]
    show bytesOf rest + _ + p.backing = _
    abel
  have hq : q.Inv := by
    refine ⟨h.wf, hrestValid, ?_, ?_, htlt, fun x hx => h.owned_lt x (howned ▸ hx)⟩
    · have := h.used_eq
      simp only [q, length_append, length_singleton, add_mul, one_mul]
      omega
    have hcard : p.free.card = q.free.card + dmem.kPageSize := by
      rw [hrestBytes, Multiset.card_add, card_bytes]
      show (bytesOf rest).card + _ = (bytesOf rest).card + _
      omega
    show p.total = p.used + dmem.kPageSize + q.free.card
    omega
  exact ⟨q, .ok b.beginAddress, by rw [hq.checked_eq]; rfl, hq, howned, rfl⟩

/-- **`releasePage` and `expand`** move it back. -/
theorem Inv.releasePage_spec (h : p.Inv) (hne : p.reservedPages ≠ []) :
    ∃ q page p', p.releasePage = some (q, .ok page) ∧
      q.expand (.fromBeginSize page dmem.kPageSize) = some p' ∧ p'.Inv ∧ p'.owned = p.owned ∧
      p'.usedBlocks = p.usedBlocks := by
  obtain ⟨init, page, hpages⟩ : ∃ init page, p.reservedPages = init ++ [page] := by
    rcases eq_nil_or_concat p.reservedPages with hnil | ⟨init, page, hp⟩
    · exact absurd hnil hne
    · exact ⟨init, page, by simpa using hp⟩
  have hK : dmem.kPageSize = 0x10000 := rfl
  have hused := h.used_eq
  have htotal := h.total_eq
  have htlt := h.total_lt
  rw [hpages, length_append, length_singleton, add_mul, one_mul] at hused
  obtain ⟨used, hused'⟩ : ∃ used, used + dmem.kPageSize = p.used :=
    ⟨p.used - dmem.kPageSize, by omega⟩
  obtain ⟨total, htotal'⟩ : ∃ total, total + dmem.kPageSize = p.total :=
    ⟨p.total - dmem.kPageSize, by omega⟩
  let q : PooledMemoryResource := { p with used, total, reservedPages := init }
  have hres : p.reserved = q.reserved + bytes page (page + dmem.kPageSize) := by simp [q, reserved, hpages]
  have howned : p.owned = q.owned + bytes page (page + dmem.kPageSize) := by
    have hfree : q.free = p.free := rfl
    have hbacking : q.backing = p.backing := rfl
    rw [owned, owned, hres, hfree, hbacking]
    abel
  have hpage : page + dmem.kPageSize < 2 ^ 64 := by
    have hlast : page + dmem.kPageSize - 1 ∈ p.owned := by
      rw [howned, Multiset.mem_add, mem_bytes]
      right
      omega
    have := h.owned_lt _ hlast
    omega
  have hq : q.Inv := by
    refine ⟨h.wf, h.valid, ?_, ?_, ?_, fun x hx => h.owned_lt x ?_⟩
    · show used = p.usedBlocks.addresses.card + init.length * dmem.kPageSize
      omega
    · show total = used + p.free.card
      omega
    · show total < 2 ^ 64
      omega
    rw [howned]
    exact Multiset.mem_add.mpr (Or.inl hx)
  have hrange : fromBeginSize page dmem.kPageSize = ⟨page, page + dmem.kPageSize⟩ := by
    rw [fromBeginSize, u64_of_lt hpage]
  obtain ⟨p', hexpand, hinv, hsame, hfree, -⟩ := hq.expand_spec (r := ⟨page, page + dmem.kPageSize⟩)
    (by show page < page + dmem.kPageSize; omega) hpage
    (by show total + (page + dmem.kPageSize - page) < 2 ^ 64
        omega)
  refine ⟨q, page, p', ?_, by rw [hrange]; exact hexpand, hinv, ?_, hsame.usedBlocks⟩
  · have hsub : u64Sub p.used dmem.kPageSize = used := by rw [u64Sub_of_le (by omega)]; omega
    have hsub' : u64Sub p.total dmem.kPageSize = total := by rw [u64Sub_of_le (by omega)]; omega
    rw [releasePage, hpages]
    simp only [getLast?_append, getLast?_singleton, some_or,
      dropLast_concat, hsub, hsub']
    rw [hq.checked_eq]
    rfl
  have heq := hsame.owned_eq
  rw [hfree] at heq
  rw [howned]
  refine add_right_cancel (b := q.free) (heq.trans ?_)
  abel

/-! ## `moveTo` -/

/-- The last free block, in a pool that has free memory. -/
theorem Inv.exists_last (h : p.Inv) (hpos : 0 < p.free.card) :
    ∃ init b, p.freeBlocks = init ++ [b] ∧ b.beginAddress < b.endAddress ∧ b.endAddress < 2 ^ 64 ∧
      p.free = bytesOf init + bytes b.beginAddress b.endAddress ∧ ∀ x ∈ init, x.beginAddress < x.endAddress := by
  obtain ⟨init, b, hlist⟩ := exists_getLast_of_card_pos hpos
  have hb : b ∈ p.freeBlocks := by simp [hlist]
  exact ⟨init, b, hlist, h.valid b hb, h.block_lt hb, by simp [free, hlist],
    fun x hx => h.valid x (by simp [hlist, hx])⟩

/-- Taking free bytes away keeps the invariant. -/
theorem Inv.take_free (h : p.Inv) (total : Nat) (blocks : List AddressRange) {m : Multiset Nat}
    (hfree : p.free = bytesOf blocks + m) (hvalid : ∀ b ∈ blocks, b.beginAddress < b.endAddress)
    (htotal : total + m.card = p.total) : ({ p with total, freeBlocks := blocks } : PooledMemoryResource).Inv := by
  have hold := h.total_eq
  have hlt := h.total_lt
  have hcard : p.free.card = (bytesOf blocks).card + m.card := by rw [hfree, Multiset.card_add]
  refine h.of_sameUse ⟨rfl, rfl, rfl⟩ hvalid ?_ ?_ fun x hx => h.owned_lt x ?_
  · show total = p.used + (bytesOf blocks).card
    omega
  · show total < 2 ^ 64
    omega
  simp only [owned, hfree, Multiset.mem_add]
  exact .inl (.inl (.inl hx))

/-- **`moveTo`** moves `size` bytes from one pool's free blocks to the other's. -/
theorem moveLoop_spec {fuel size : Nat} (hp : p.Inv) (ho : other.Inv)
    (hsum : p.total + other.total < 2 ^ 64) (hsize : size ≤ p.free.card)
    (hfuel : p.freeBlocks.length < fuel) :
    ∃ p' other', moveLoop fuel p other size = some (p', other') ∧ p'.Inv ∧ other'.Inv ∧
      SameUse p p' ∧ SameUse other other' ∧ p'.free + other'.free = p.free + other.free ∧
      other'.free.card = other.free.card + size := by
  induction fuel generalizing p other size with
  | zero => exact absurd hfuel (Nat.not_lt_zero _)
  | succ fuel ih =>
    rw [moveLoop]
    have htotal := hp.total_eq
    by_cases hzero : size = 0 ∨ p.total = 0
    · have h0 : size = 0 := by omega
      exact ⟨p, other, if_pos hzero, hp, ho, ⟨rfl, rfl, rfl⟩, ⟨rfl, rfl, rfl⟩, rfl, by omega⟩
    obtain ⟨init, b, hlist, hbvalid, hblt, hfree, hinit⟩ := hp.exists_last (by omega)
    have hcard : p.free.card = (bytesOf init).card + (b.endAddress - b.beginAddress) := by
      rw [hfree, Multiset.card_add, card_bytes]
    rw [if_neg hzero, hlist]
    simp only [getLast?_append, getLast?_singleton, some_or, bind_some,
      dropLast_concat, size_of_valid hbvalid]
    by_cases hpart : size < b.endAddress - b.beginAddress
    · -- a part of the block is enough
      have hmove : fromBeginSize b.beginAddress size =
          ⟨b.beginAddress, b.beginAddress + size⟩ := by rw [fromBeginSize, u64_of_lt (by omega)]
      have hcut := bytes_add_bytes (b := b.beginAddress) (m := b.beginAddress + size)
        (e := b.endAddress) (by omega) (by omega)
      obtain ⟨other', hexpand, ho', hsame', hfree', htotal'⟩ :=
        ho.expand_spec (r := ⟨b.beginAddress, b.beginAddress + size⟩)
          (by show b.beginAddress < b.beginAddress + size; omega)
          (by show b.beginAddress + size < 2 ^ 64; omega)
          (by show other.total + (b.beginAddress + size - b.beginAddress) < 2 ^ 64
              omega)
      have hp' := hp.take_free (p.total - size)
        (init ++ [⟨b.beginAddress + size, b.endAddress⟩])
        (m := bytes b.beginAddress (b.beginAddress + size))
        (by rw [hfree, ← hcut]; simp only [bytesOf_append, bytesOf_cons, bytesOf_nil]; abel)
        (by
          intro x hx
          rcases mem_append.mp hx with hx | hx
          · exact hinit x hx
          rw [mem_singleton.mp hx]
          show b.beginAddress + size < b.endAddress
          omega)
        (by rw [card_bytes]; omega)
      refine ⟨_, other', ?_, hp', ho', ⟨rfl, rfl, rfl⟩, hsame', ?_, ?_⟩
      · rw [if_pos hpart, hmove, hexpand, u64Sub_of_le (by omega)]
        rfl
      · rw [hfree', hfree, ← hcut]
        simp only [free, bytesOf_append, bytesOf_cons, bytesOf_nil]
        abel
      rw [hfree', Multiset.card_add, card_bytes]
      show _ + (b.beginAddress + size - b.beginAddress) = _
      omega
    -- the whole block goes, and the loop goes on
    obtain ⟨other', hexpand, ho', hsame', hfree', htotal'⟩ :=
      ho.expand_spec hbvalid hblt (by omega)
    have hp' := hp.take_free (p.total - (b.endAddress - b.beginAddress)) init hfree hinit (by rw [card_bytes]; omega)
    have hlen : init.length < fuel := by
      rw [hlist, length_append, length_singleton] at hfuel
      omega
    obtain ⟨p'', other'', hrec, hp'', ho'', hsameP, hsameO, hsum', hcard'⟩ :=
      ih hp' ho'
        (by rw [htotal']
            show p.total - (b.endAddress - b.beginAddress) + _ < 2 ^ 64
            omega)
        (show size - (b.endAddress - b.beginAddress) ≤ (bytesOf init).card by omega) hlen
    refine ⟨p'', other'', ?_, hp'', ho'', ⟨hsameP.used, hsameP.usedBlocks, hsameP.reservedPages⟩,
      hsame'.trans hsameO, ?_, ?_⟩
    · rw [if_neg hpart, hexpand, u64Sub_of_le (by omega), u64Sub_of_le (not_lt.mp hpart)]
      exact hrec
    · rw [hsum', hfree', hfree]
      show bytesOf init + _ = _
      abel
    rw [hcard', hfree', Multiset.card_add, card_bytes]
    omega

theorem eq_of_expand (h : p.expand r = some p') : p'.freeBlocks = insertBlock p.freeBlocks r := by
  rw [← some.inj (ite_none_right_eq_some.mp h).2]
  rfl

/-- The turns of the loop go down from the last block, so joined blocks become one block again. -/
theorem moveLoop_joined {fuel size : Nat} {init l : List AddressRange} (hlist : p.freeBlocks = init ++ l)
    (hjoined : Joined l) (hvalid : ∀ b ∈ l, b.beginAddress < b.endAddress) (hcard : (bytesOf l).card = size)
    (hother : other.freeBlocks = [] ∨ ∃ c, other.freeBlocks = [c] ∧ ∀ b ∈ l.getLast?, b.endAddress = c.beginAddress)
    (h : moveLoop fuel p other size = some (p', other')) : other'.freeBlocks.length ≤ 1 := by
  induction fuel generalizing p other size l with
  | zero => cases h
  | succ fuel ih =>
    rw [moveLoop] at h
    split at h
    · obtain rfl := congrArg Prod.snd (some.inj h)
      obtain hnil | ⟨c, hc, -⟩ := hother
      · rw [hnil]
        exact Nat.zero_le 1
      · rw [hc, length_singleton]
    next hsize =>
    obtain ⟨l, b, rfl⟩ := exists_getLast_of_card_pos (l := l) (by omega)
    have hb := hvalid b (mem_append_right l (mem_singleton_self b))
    rw [bytesOf_append, bytesOf_cons, bytesOf_nil, add_zero, Multiset.card_add, card_bytes] at hcard
    rw [hlist, ← append_assoc, getLast?_concat, bind_some, size_of_valid hb, if_neg (by omega)] at h
    obtain ⟨other₁, hexpand, h⟩ := bind_eq_some_iff.mp h
    rw [dropLast_concat] at h
    rw [u64Sub_of_le (show b.endAddress - b.beginAddress ≤ size by omega)] at h
    obtain ⟨hjoined, -, hend⟩ := isChain_append.mp hjoined
    refine ih rfl hjoined (fun x hx => hvalid x (mem_append_left _ hx)) (by omega) (.inr ⟨?_, ?_, ?_⟩) h
    · exact ⟨b.beginAddress, (other.freeBlocks.head?.getD b).endAddress⟩
    · rw [eq_of_expand hexpand]
      obtain hnil | ⟨c, hc, hbc⟩ := hother
      · rw [hnil]
        rfl
      · rw [hc, insertBlock]
        have hbc := hbc b getLast?_concat
        simp only [takeWhile, dropWhile, decide_eq_false (show ¬c.beginAddress ≤ b.beginAddress by omega)]
        rw [if_pos hbc]
        rfl
    · exact fun x hx => hend x hx b rfl

/-- A page that is in one piece arrives as the only block of an empty pool. -/
theorem moveLoop_ready {fuel : Nat} (hp : p.Inv) (hahead : PageAhead p.freeBlocks) (hother : other.freeBlocks = [])
    (h : moveLoop fuel p other dmem.kPageSize = some (p', other')) : other'.freeBlocks.length ≤ 1 := by
  obtain ⟨b, hb, hsize⟩ | ⟨init, l, hlist, hjoined, hcard⟩ := hahead
  · obtain ⟨init, hlist⟩ := getLast?_eq_some_iff.mp hb
    have hvalid := hp.valid b (hlist ▸ mem_append_right init (mem_singleton_self b))
    cases fuel with
    | zero => cases h
    | succ fuel =>
      obtain hlt | heq := hsize.lt_or_eq
      · rw [moveLoop, hb, bind_some, if_pos hlt] at h
        split at h
        · cases h
          rw [hother]
          exact Nat.zero_le 1
        obtain ⟨other₁, hexpand, heq⟩ := map_eq_some_iff.mp h
        cases heq
        rw [eq_of_expand hexpand, hother]
        exact Nat.le_refl 1
      refine moveLoop_joined hlist (isChain_singleton b) (by simpa using hvalid) ?_ (.inl hother) h
      rw [bytesOf_cons, bytesOf_nil, add_zero, card_bytes, ← size_of_valid hvalid, heq]
  · exact moveLoop_joined hlist hjoined (fun b hb => hp.valid b (hlist ▸ mem_append_right init hb)) hcard (.inl hother) h

theorem moveTo_spec {size : Nat} (hp : p.Inv) (ho : other.Inv)
    (hsum : p.total + other.total < 2 ^ 64) (hsize : size ≤ p.free.card) :
    ∃ p' other', p.moveTo other size = some (p', other') ∧ p'.Inv ∧ other'.Inv ∧
      SameUse p p' ∧ SameUse other other' ∧ p'.owned + other'.owned = p.owned + other.owned ∧
      other'.free.card = other.free.card + size ∧
      (size = dmem.kPageSize → PageAhead p.freeBlocks → other.freeBlocks = [] → other'.PageReady) := by
  obtain ⟨p', other', hloop, hp', ho', hsame, hsame', hfree, hcard⟩ :=
    moveLoop_spec hp ho hsum hsize (Nat.lt_succ_self _)
  refine ⟨p', other', ?_, hp', ho', hsame, hsame', ?_, hcard, ?_⟩
  · simp only [moveTo, hloop, bind_some, hp'.checked_eq, map_some]
  rotate_left
  · rintro rfl hahead hother b hb
    obtain ⟨init, hlist⟩ := getLast?_eq_some_iff.mp hb
    have hlength := moveLoop_ready hp hahead hother hloop
    rw [hlist, length_append, length_singleton] at hlength
    rw [free, free, hother, hlist, length_eq_zero_iff.mp (show init.length = 0 by omega)] at hcard
    simp only [nil_append, bytesOf_cons, bytesOf_nil, add_zero, card_bytes, Multiset.card_zero, zero_add] at hcard
    exact hcard.ge
  refine add_right_cancel (b := p.free + other.free) ?_
  calc p'.owned + other'.owned + (p.free + other.free)
      = (p'.owned + p.free) + (other'.owned + other.free) := by abel
    _ = (p.owned + p'.free) + (other.owned + other'.free) := by rw [hsame.owned_eq, hsame'.owned_eq]
    _ = p.owned + other.owned + (p'.free + other'.free) := by abel
    _ = p.owned + other.owned + (p.free + other.free) := by rw [hfree]

end PooledMemoryResource

end Rpcsx.Orbis
