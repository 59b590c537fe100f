import PriorityLfu.Deepsize.Words

/-!
# Collections and what they hold

Every collection counts the elements' own heap and, once for the whole collection, an
allocation that its length or its capacity gives: `Collection.children_eq_fit`. Whether the
elements are covered is then whether that allocation has room for them, and whether the sums and
products that a build computes are words.
-/
namespace PriorityLfu.Deepsize
open Sizing

/-- Items of one type. -/
abbrev Items (α : Type) (elem : Layout) :=
  {items : List (Component α) // ∀ c ∈ items, c.size = elem.size}

/-- Keys of one type with values of another. -/
abbrev Entries (α : Type) (key value : Layout) :=
  {entries : List (Component α × Component α) //
    ∀ e ∈ entries, e.1.size = key.size ∧ e.2.size = value.size}

/-- The collections of the standard library, with any content. -/
inductive Collection (α : Type)
  | vec (elem : Layout) (items : Items α elem) (capacity : Nat)
      (le : items.val.length ≤ capacity)
  | vecDeque (elem : Layout) (items : Items α elem) (capacity : Nat)
      (le : items.val.length ≤ capacity)
  | linkedList (elem : Layout) (items : Items α elem)
  | hashMap (key value : Layout) (entries : Entries α key value) (capacity : Nat)
      (le : entries.val.length ≤ capacity)
  | hashSet (key : Layout) (items : Items α key) (capacity : Nat)
      (le : items.val.length ≤ capacity)
  | bTreeMap (key value : Layout) (entries : Entries α key value)
  | bTreeSet (key : Layout) (items : Items α key)

variable {α : Type}

/-- The tuple `(K, V)` of an entry. -/
def pair [Amount α] (key value : Layout) (entry : Component α × Component α) : Component α where
  size := (Layout.tuple [key, value]).size
  children := tuple [entry.1, entry.2]

namespace Collection

def elem : Collection α → Layout
  | .vec elem .. | .vecDeque elem .. | .linkedList elem .. | .hashSet elem .. | .bTreeSet elem .. =>
    elem
  | .hashMap key value .. | .bTreeMap key value .. => .tuple [key, value]

def elements [Amount α] : Collection α → List (Component α)
  | .vec _ items .. | .vecDeque _ items .. | .linkedList _ items | .hashSet _ items ..
  | .bTreeSet _ items => items
  | .hashMap key value entries .. | .bTreeMap key value entries =>
    entries.val.map (pair key value)

def len : Collection α → Nat
  | .vec _ items .. | .vecDeque _ items .. | .linkedList _ items | .hashSet _ items ..
  | .bTreeSet _ items => items.val.length
  | .hashMap _ _ entries .. | .bTreeMap _ _ entries => entries.val.length

def deepSizeOfChildren [Amount α] (w : PointerWidth) : Collection α → Sizing α
  | .vec elem items capacity _ => Deepsize.vec elem capacity items
  | .vecDeque elem items capacity _ => Deepsize.vecDeque elem capacity items
  | .linkedList _ items => Deepsize.linkedList w items
  | .hashMap key value entries capacity _ => Deepsize.hashMap key value capacity entries
  | .hashSet key items capacity _ => Deepsize.hashSet key capacity items
  | .bTreeMap key value entries => Deepsize.bTreeMap w key value entries
  | .bTreeSet key items => Deepsize.bTreeSet w key items

/-- The elements' own `deep_size_of_children`, called in order, and the exact sum of the results. -/
def elementsChildren {checks : Bool} {b : Nat} (self : Collection (Usize checks b)) : Sizing Nat :=
  (self.elements.map fun child => child.children.exact).sum

def isBTree : Collection α → Bool
  | .bTreeMap .. | .bTreeSet .. => true
  | _ => false

/-- The product that a B-tree divides among the elements of a node. -/
def product (w : PointerWidth) : Collection α → Nat
  | .bTreeMap key value entries => entries.val.length * overhead w (.tuple [key, value]) * 2
  | .bTreeSet key items => items.val.length * overhead w key * 2
  | _ => 0

/-- What is counted beside the elements' own heap. -/
def allocation (w : PointerWidth) : Collection α → Nat
  | .vec elem _ capacity _ | .vecDeque elem _ capacity _ | .hashSet elem _ capacity _ =>
    capacity * elem.size
  | .linkedList elem items => items.val.length * (elem.size + w.usize.size * 2)
  | .hashMap key value _ capacity _ => capacity * (Layout.tuple [key, value]).size
  | .bTreeMap key value entries =>
    entries.val.length * overhead w (.tuple [key, value]) * 2 / (BTREE_MAX + BTREE_MIN)
  | .bTreeSet key items => items.val.length * overhead w key * 2 / (BTREE_MAX + BTREE_MIN)

/-- A collection in memory: its length is a word, no type is larger than half the address space,
not even the node that a B-tree takes, and what another collection has allocated is a word. -/
structure InMemory (w : PointerWidth) (items : Collection α) : Prop where
  len_lt : items.len < 2 ^ w.bits
  overhead_lt : 2 * overhead w items.elem < 2 ^ w.bits
  allocation_lt : items.isBTree = false → items.allocation w < 2 ^ w.bits

end Collection

/-! ## The sum of a call -/

variable {w : PointerWidth} {checks : Bool} {held : Locks} {c d : Context} {m : Nat}

/-- A pair is measured key first. -/
theorem foldl_entries_eq [Amount α] (key value : Layout)
    (entries : List (Component α × Component α)) :
    entries.foldl (fun sum entry => sum + entry.1.children + entry.2.children) 0 =
      ((entries.map (pair key value)).map Component.children).sum := by
  have hpair : ∀ entry : Component α × Component α,
      entry.1.children + entry.2.children = (pair key value entry).children := fun entry =>
    congrArg (· + entry.2.children) (zero_add entry.1.children).symm
  simp only [add_assoc, hpair]
  rw [foldl_add_eq fun entry => (pair key value entry).children, zero_add, List.map_map]
  rfl

/-- The elements' calls in a build, one after the other. -/
theorem children_sum_eq_fit {b : Nat} (items : List (Component (Usize checks b))) :
    (items.map Component.children).sum =
      (items.map fun child : Component (Usize checks b) => child.children.exact).sum.fit := by
  rw [fit_sum]
  simp only [fit_exact]

/-- The elements' calls and a buffer of `capacity` places. -/
theorem buffer_eq_fit {b capacity size : Nat} {items : List (Component (Usize checks b))}
    (hfits : capacity * size < 2 ^ b)
    (h : (items.map fun child => child.children.exact).sum held c = some (m, d)) :
    ((items.map Component.children).sum + product capacity size : Sizing (Usize checks b)) held c =
      (Usize.fit (m + capacity * size)).map fun x => (x, d) := by
  have hbuffer : (product capacity size : Sizing Nat) held d = some (capacity * size, d) := rfl
  rw [children_sum_eq_fit, ← fit_product hfits, ← fit_add]
  exact fit_apply (add_eq_some h hbuffer)

/-- A list of nodes adds a node's own size before and after each child. -/
theorem linkedList_eq_some {elem : Layout} {items : List (Component Nat)}
    (hs : ∀ i ∈ items, i.size = elem.size)
    (h : (items.map Component.children).sum held c = some (m, d)) :
    linkedList w items held c =
      some (m + items.length * (elem.size + w.usize.size * 2), d) := by
  simp only [linkedList, add_assoc, foldl_add_eq fun i : Component Nat =>
    const i.size + (i.children + const (w.usize.size * 2)), zero_add]
  induction items generalizing c m with
  | nil =>
    cases h
    simp [Sizing.zero_apply]
  | cons i is ih =>
    obtain ⟨hi, his⟩ := List.forall_mem_cons.mp hs
    rw [List.map_cons, List.sum_cons] at h ⊢
    obtain ⟨a, b, e, ha, hb, rfl⟩ := add_eq_some_iff.mp h
    have hnode : (const i.size + (i.children + const (w.usize.size * 2)) : Sizing Nat) held c =
        some (i.size + (a + w.usize.size * 2), e) :=
      add_eq_some rfl (add_eq_some ha rfl)
    rw [add_eq_some hnode (ih his hb), hi, List.length_cons, Nat.succ_mul]
    congr 2
    omega

/-- In a build the nodes are counted as they are exactly, as a word. -/
theorem linkedList_eq_fit {b : Nat} {elem : Layout} (items : List (Component (Usize checks b)))
    (hs : ∀ i ∈ items, i.size = elem.size)
    (hfits : items.length * (elem.size + w.usize.size * 2) < 2 ^ b) :
    linkedList w items = (linkedList w (items.map Component.exact)).fit := by
  simp only [linkedList, add_assoc, foldl_add_eq fun i : Component _ =>
    const i.size + (i.children + const (w.usize.size * 2)), zero_add, List.map_map, fit_sum]
  refine congrArg List.sum (List.map_congr_left fun i hi => ?_)
  have hnode : elem.size + w.usize.size * 2 < 2 ^ b :=
    (Nat.le_mul_of_pos_left _ (List.length_pos_of_mem hi)).trans_lt hfits
  have hsize : i.size < 2 ^ b := by
    rw [hs i hi]
    omega
  simp only [Function.comp_apply, fit_add, Component.exact, fit_exact, fit_const hsize,
    fit_const (show w.usize.size * 2 < 2 ^ b by omega)]

/-- What a B-tree adds for its nodes. -/
theorem bTreeNodes_eq {b len size : Nat} (hb : 2 < 2 ^ b) (hlen : len < 2 ^ b)
    (hsize : size < 2 ^ b) (held : Locks) (c : Context) :
    (bTreeNodes len size : Sizing (Usize checks b)) held c =
      (Usize.fit (len * size * 2)).map fun x => (x.div (BTREE_MAX + BTREE_MIN), c) := by
  have hmul : (Usize.ofNat len : Usize checks b).mul (Usize.ofNat size) =
      Usize.fit (len * size) := by
    rw [Usize.mul_eq_fit, Usize.toNat_ofNat, Usize.toNat_ofNat, Nat.mod_eq_of_lt hlen,
      Nat.mod_eq_of_lt hsize]
  have htwo : ((Usize.fit (len * size)).bind fun x : Usize checks b => x.mul (Usize.ofNat 2)) =
      Usize.fit (len * size * 2) := Usize.fit_mul (len * size) Nat.two_pos hb
  rw [← hmul] at htwo
  exact congrArg (Option.map fun x => (Usize.div x (BTREE_MAX + BTREE_MIN), c)) htwo

theorem PointerWidth.lt_two_pow_bits (w : PointerWidth) : BTREE_MAX + BTREE_MIN < 2 ^ w.bits := by
  cases w <;> decide

namespace Collection

variable {self : Collection (Usize checks w.bits)}

/-- One call of a collection that is no B-tree: its elements' calls and its allocation. -/
theorem children_eq_fit (hmem : self.InMemory w) (hkind : self.isBTree = false)
    (h : self.elementsChildren held c = some (m, d)) :
    self.deepSizeOfChildren w held c =
      (Usize.fit (m + self.allocation w)).map fun x => (x, d) := by
  have hfits := hmem.allocation_lt hkind
  cases self with
  | vec elem items capacity le | vecDeque elem items capacity le => exact buffer_eq_fit hfits h
  | linkedList elem items =>
    have hcall := linkedList_eq_fit items.val items.property hfits
    refine (congrFun (congrFun hcall held) c).trans (fit_apply ?_)
    have hsizes : ∀ i ∈ items.val.map Component.exact, i.size = elem.size := by
      intro i hi
      obtain ⟨j, hj, rfl⟩ := List.mem_map.mp hi
      exact items.property j hj
    have hsum : ((items.val.map Component.exact).map Component.children).sum held c =
        some (m, d) := by
      rw [List.map_map]
      exact h
    rw [linkedList_eq_some hsizes hsum, List.length_map]
    rfl
  | hashMap key value entries capacity le =>
    rw [deepSizeOfChildren, Deepsize.hashMap, foldl_entries_eq key value]
    exact buffer_eq_fit hfits h
  | hashSet key items capacity le =>
    rw [deepSizeOfChildren, Deepsize.hashSet, foldl_add_eq Component.children, zero_add]
    exact buffer_eq_fit hfits h
  | bTreeMap key value entries | bTreeSet key items => cases hkind

theorem product_eq {self : Collection α} (hkind : self.isBTree = true) :
    self.product w = self.len * overhead w self.elem * 2 := by
  cases self with
  | bTreeMap key value entries | bTreeSet key items => rfl
  | _ => cases hkind

theorem allocation_eq {self : Collection α} (hkind : self.isBTree = true) :
    self.allocation w = self.product w / (BTREE_MAX + BTREE_MIN) := by
  cases self with
  | bTreeMap key value entries | bTreeSet key items => rfl
  | _ => cases hkind

/-- One call of a B-tree: its elements' calls, and a share of the product. -/
theorem bTree_children_eq (hmem : self.InMemory w) (hkind : self.isBTree = true)
    (h : self.elementsChildren held c = some (m, d)) :
    self.deepSizeOfChildren w held c =
      (Usize.fit (self.product w)).bind fun y : Usize checks w.bits =>
        (Usize.fit (m + (y.div (BTREE_MAX + BTREE_MIN)).toNat)).map fun z => (z, d) := by
  have hcall : self.deepSizeOfChildren w = (self.elements.map Component.children).sum +
      bTreeNodes self.len (overhead w self.elem) := by
    cases self with
    | bTreeMap key value entries =>
      refine congrArg (· + _) ?_
      exact foldl_entries_eq key value entries.val
    | bTreeSet key items =>
      refine congrArg (· + _) ?_
      rw [foldl_add_eq Component.children, zero_add]
      rfl
    | _ => cases hkind
  have helements : (self.elements.map Component.children).sum held c =
      (Usize.fit m).map fun x => (x, d) := by
    rw [children_sum_eq_fit]
    exact fit_apply h
  have hnodes : (bTreeNodes self.len (overhead w self.elem) : Sizing (Usize checks w.bits)) held d =
      (Usize.fit (self.product w)).map fun y => (y.div (BTREE_MAX + BTREE_MIN), d) := by
    have hover := hmem.overhead_lt
    rw [product_eq hkind]
    exact bTreeNodes_eq (lt_trans (by decide) w.lt_two_pow_bits) hmem.len_lt (by omega) held d
  rw [hcall, Sizing.add_apply, helements]
  cases hy : (Usize.fit (self.product w) : Option (Usize checks w.bits)) with
  | none => cases (Usize.fit m : Option (Usize checks w.bits)) <;> simp [hnodes, hy]
  | some y =>
    rw [Option.bind_some, ← Usize.fit_add, Usize.fit_toNat]
    cases (Usize.fit m : Option (Usize checks w.bits)) with
    | none => rfl
    | some x => simp [hnodes, hy, Amount.add]

end Collection

/-! ## The size of a node -/

theorem le_roundUp_iff {n x align : Nat} (ha : 0 < align) (hd : align ∣ n) :
    n ≤ roundUp x align ↔ n < x + align := by
  obtain ⟨k, rfl⟩ := hd
  rw [roundUp, mul_comm align k, Nat.mul_le_mul_right_iff ha, Nat.le_div_iff_mul_le ha]
  omega

theorem overhead_eq (w : PointerWidth) (elem : Layout) : overhead w elem =
    roundUp (7 * w.usize.size + 4 + 5 * elem.size) (max w.usize.size elem.align) := by
  have h := elem.align_pos
  cases w <;> simp only [overhead, Layout.tuple, Layout.array, Layout.u16, PointerWidth.usize,
    BTREE_MAX, BTREE_B, List.map_cons, List.map_nil, List.sum_cons, List.sum_nil,
    List.foldr_cons, List.foldr_nil] <;> congr 1 <;> omega

/-- A node of half the elements and one third of the size of a full one. -/
theorem le_overhead_iff (w : PointerWidth) (elem : Layout) : 8 * elem.size ≤ overhead w elem ↔
    3 * elem.size < 7 * w.usize.size + 4 + max w.usize.size elem.align := by
  have hdvd : max w.usize.size elem.align ∣ 8 * elem.size := by
    rcases le_total w.usize.size elem.align with hle | hle
    · rw [max_eq_right hle]
      exact elem.align_dvd.mul_left 8
    · rw [max_eq_left hle]
      exact Dvd.dvd.mul_right (by cases w <;> decide) elem.size
  rw [overhead_eq, le_roundUp_iff (lt_max_of_lt_right elem.align_pos) hdvd]
  omega

theorem bTree_allocation_iff (w : PointerWidth) (elem : Layout) (n : Nat) :
    n * elem.size ≤ n * overhead w elem * 2 / (BTREE_MAX + BTREE_MIN) ↔
      n = 0 ∨ 3 * elem.size < 7 * w.usize.size + 4 + max w.usize.size elem.align := by
  have hsum : BTREE_MAX + BTREE_MIN = 8 * 2 := rfl
  rw [← le_overhead_iff, hsum, Nat.le_div_iff_mul_le (by decide), ← mul_assoc,
    Nat.mul_le_mul_right_iff (by decide), mul_assoc, mul_comm elem.size 8]
  rcases Nat.eq_zero_or_pos n with rfl | hn
  · simp
  · rw [Nat.mul_le_mul_left_iff hn]
    simp [hn.ne']

theorem product_lt_of_few {len size node bound : Nat} (k most : Nat) (hlen : len ≤ 2 ^ (8 * size))
    (hsize : size ≤ k) (hnode : node ≤ most) (hbound : 2 ^ (8 * k) * most * 2 < bound) :
    len * node * 2 < bound := by
  have hpow : 2 ^ (8 * size) ≤ 2 ^ (8 * k) := Nat.pow_le_pow_right Nat.two_pos (by omega)
  have hprod : len * node ≤ 2 ^ (8 * k) * most := Nat.mul_le_mul (hlen.trans hpow) hnode
  omega

/-- The different values of a type with a few bytes are not enough for the product to overflow and
still to leave room for them. -/
theorem product_lt {len : Nat} {elem : Layout} (hlen : len ≤ 2 ^ (8 * elem.size))
    (hsize : 2 * overhead w elem < 2 ^ w.bits)
    (hroom : 16 * (len * elem.size) ≤ len * overhead w elem * 2 % 2 ^ w.bits) :
    len * overhead w elem * 2 < 2 ^ w.bits := by
  by_contra hover
  -- one turn at least was lost, and more than the elements need is left
  have hturn := Nat.div_add_mod (len * overhead w elem * 2) (2 ^ w.bits)
  have hlost : 2 ^ w.bits ≤ 2 ^ w.bits * (len * overhead w elem * 2 / 2 ^ w.bits) :=
    Nat.le_mul_of_pos_right _ (Nat.div_pos (by omega) (Nat.two_pow_pos _))
  have hleft := Nat.mod_lt (len * overhead w elem * 2) (Nat.two_pow_pos w.bits)
  have hmore : len * (16 * elem.size) < len * overhead w elem := by
    rw [Nat.mul_left_comm]
    omega
  have hnode : 16 * elem.size < overhead w elem := Nat.lt_of_mul_lt_mul_left hmore
  rcases Nat.eq_zero_or_pos elem.size with hzero | hpos
  · -- there is one value at most
    rw [hzero, Nat.mul_zero, Nat.pow_zero] at hlen
    have hone : len * overhead w elem ≤ 1 * overhead w elem := Nat.mul_le_mul_right _ hlen
    omega
  · have halign : elem.align ≤ elem.size := Nat.le_of_dvd hpos elem.align_dvd
    have hround : overhead w elem < 7 * w.usize.size + 4 + 5 * elem.size +
        max w.usize.size elem.align := by
      rw [overhead_eq]
      have hdiv := Nat.div_mul_le_self (7 * w.usize.size + 4 + 5 * elem.size +
        max w.usize.size elem.align - 1) (max w.usize.size elem.align)
      have hmax : 0 < max w.usize.size elem.align := lt_max_of_lt_right elem.align_pos
      rw [roundUp]
      omega
    -- the elements are smaller than a pointer
    cases w <;> simp only [PointerWidth.usize] at hround
    case bits16 =>
      exact hover (product_lt_of_few 1 24 hlen (by omega) (by omega) (by decide))
    case bits32 =>
      exact hover (product_lt_of_few 3 50 hlen (by omega) (by omega) (by decide))
    case bits64 =>
      exact hover (product_lt_of_few 6 97 hlen (by omega) (by omega) (by decide))

/-! ## Collections are covered -/

namespace Collection

variable {self : Collection (Usize checks w.bits)}

theorem allocation_covers_iff (w : PointerWidth) (self : Collection α) :
    self.len * self.elem.size ≤ self.allocation w ↔
      self.isBTree = false ∨ self.len = 0 ∨
        3 * self.elem.size < 7 * w.usize.size + 4 + max w.usize.size self.elem.align := by
  cases self with
  | vec elem items capacity le => exact iff_of_true (Nat.mul_le_mul_right _ le) (Or.inl rfl)
  | vecDeque elem items capacity le => exact iff_of_true (Nat.mul_le_mul_right _ le) (Or.inl rfl)
  | linkedList elem items =>
    exact iff_of_true (Nat.mul_le_mul_left _ (Nat.le_add_right ..)) (Or.inl rfl)
  | hashMap key value entries capacity le =>
    exact iff_of_true (Nat.mul_le_mul_right _ le) (Or.inl rfl)
  | hashSet key items capacity le => exact iff_of_true (Nat.mul_le_mul_right _ le) (Or.inl rfl)
  | bTreeMap key value entries =>
    simpa [isBTree, len, allocation, elem] using bTree_allocation_iff w _ entries.val.length
  | bTreeSet key items =>
    simpa [isBTree, len, allocation, elem] using bTree_allocation_iff w key items.val.length

/-- What is counted beside the elements' own heap covers the elements if there is room, and the
sum is a word. -/
theorem fit_covers_iff {b a need : Nat} (ha : a < 2 ^ b) :
    (∃ n e, (Usize.fit (m + a) : Option (Usize checks b)).map (fun x => (x, d)) = some (n, e) ∧
      need + m ≤ n.toNat) ↔ m + a < 2 ^ b ∧ need ≤ a := by
  constructor
  · rintro ⟨n, e, hcall, hle⟩
    obtain ⟨x, hx, heq⟩ := Option.map_eq_some_iff.mp hcall
    cases heq
    have hlt : m + a < 2 ^ b := by
      rw [Nat.add_comm] at hx ⊢
      exact Usize.lt_of_fit hx ha (by omega)
    have hsum : n.toNat = m + a := Word.toNat_of_fit hx hlt
    exact ⟨hlt, by omega⟩
  · rintro ⟨hlt, hle⟩
    obtain ⟨x, hx, hsum⟩ := Usize.fit_of_lt hlt
    exact ⟨x, d, congrArg (Option.map fun x => (x, d)) hx, by omega⟩

/-- A B-tree that is not empty covers its elements if the product is a word and they are small, and
otherwise has less than the product unless an overflow check fires. -/
theorem bTree_covers_iff (hmem : self.InMemory w) (hkind : self.isBTree = true)
    (hdiff : checks = true ∨ self.product w < 2 ^ w.bits ∨ self.len ≤ 2 ^ (8 * self.elem.size))
    (h : self.elementsChildren held c = some (m, d)) :
    (∃ n e, self.deepSizeOfChildren w held c = some (n, e) ∧
      self.len * self.elem.size + m ≤ n.toNat) ↔
      m + self.allocation w < 2 ^ w.bits ∧ self.product w < 2 ^ w.bits ∧
        self.len * self.elem.size ≤ self.allocation w := by
  have hcall := bTree_children_eq hmem hkind h
  have hshare (y : Usize checks w.bits) : (y.div (BTREE_MAX + BTREE_MIN)).toNat < 2 ^ w.bits :=
    BitVec.isLt _
  by_cases hfits : self.product w < 2 ^ w.bits
  · obtain ⟨y, hy, hword⟩ : ∃ y : Usize checks w.bits, _ := Usize.fit_of_lt hfits
    have halloc : (y.div (BTREE_MAX + BTREE_MIN)).toNat = self.allocation w := by
      rw [allocation_eq hkind, Usize.toNat_div y w.lt_two_pow_bits, hword]
    rw [hcall, hy, Option.bind_some, fit_covers_iff (hshare y), halloc]
    simp [hfits]
  · refine iff_of_false ?_ fun hcond => hfits hcond.2.1
    rintro ⟨n, e, hn, hle⟩
    rw [hcall] at hn
    obtain ⟨y, hy, hn⟩ := Option.bind_eq_some_iff.mp hn
    obtain ⟨hlt, hroom⟩ := (fit_covers_iff (hshare y)).mp ⟨n, e, hn, hle⟩
    obtain ⟨hchecked, hword⟩ := Word.fit_eq_some.mp hy
    rcases hdiff with hchecks | hproduct | hlen
    · exact hfits (hchecked hchecks)
    · exact hfits hproduct
    · rw [product_eq hkind] at hfits hword
      refine hfits (product_lt hlen hmem.overhead_lt ?_)
      have hmod : y.toNat = self.len * overhead w self.elem * 2 % 2 ^ w.bits :=
        hword ▸ Usize.toNat_ofNat _
      rw [Usize.toNat_div y w.lt_two_pow_bits, hmod] at hroom
      have hsum : BTREE_MAX + BTREE_MIN = 16 := rfl
      rw [hsum] at hroom
      omega

/-- A collection counts at least its elements and their own heap, exactly if the sum is a word and,
for a B-tree that is not empty, the product that it divides is one and its elements are small for
the node that it takes. This supposes that an overflow of that product is caught, or that there are
no more elements than different values of their type. -/
theorem covers_elements_iff (hmem : self.InMemory w)
    (hdiff : checks = true ∨ self.product w < 2 ^ w.bits ∨ self.len ≤ 2 ^ (8 * self.elem.size))
    (h : self.elementsChildren held c = some (m, d)) :
    (∃ n e, self.deepSizeOfChildren w held c = some (n, e) ∧
      self.len * self.elem.size + m ≤ n.toNat) ↔
      m + self.allocation w < 2 ^ w.bits ∧ (self.isBTree = false ∨ self.len = 0 ∨
        self.product w < 2 ^ w.bits ∧
          3 * self.elem.size < 7 * w.usize.size + 4 + max w.usize.size self.elem.align) := by
  have hroom := allocation_covers_iff w self
  cases hkind : self.isBTree with
  | false =>
    have hall : self.len * self.elem.size ≤ self.allocation w := hroom.mpr (.inl hkind)
    rw [children_eq_fit hmem hkind h, fit_covers_iff (hmem.allocation_lt hkind)]
    simp [hall]
  | true =>
    rw [bTree_covers_iff hmem hkind hdiff h, hroom, hkind]
    refine and_congr_right fun _ => ?_
    have hempty : self.len = 0 → self.product w < 2 ^ w.bits := fun hlen => by
      rw [product_eq hkind, hlen, Nat.zero_mul, Nat.zero_mul]
      exact Nat.two_pow_pos _
    simp only [Bool.true_eq_false, false_or]
    tauto

/-- Layout of a word on a 64-bit target. -/
def u64Layout : Layout := ⟨8, 8, PointerWidth.bits64.usize.align_pos, 1, rfl⟩

/-- Layout of a string on a 64-bit target. -/
def stringLayout : Layout := ⟨24, 8, PointerWidth.bits64.usize.align_pos, 3, rfl⟩

/-- Strings of 5 bytes each. -/
def strings (n : Nat) : Items (Usize true 64) stringLayout :=
  ⟨List.replicate n ⟨24, string 5⟩, fun _ h => (List.eq_of_mem_replicate h) ▸ rfl⟩

/-- Words. -/
def words (n : Nat) : Items (Usize true 64) u64Layout :=
  ⟨List.replicate n ⟨8, knownDeepSize 0⟩, fun _ h => (List.eq_of_mem_replicate h) ▸ rfl⟩

/-- Three words have 39 bytes in the nodes of a B-tree. -/
theorem covers_elements_iff_words :
    ∃ n e, (bTreeSet u64Layout (words 3)).deepSizeOfChildren .bits64 [] .new = some (n, e) ∧
      3 * 8 + 0 ≤ n.toNat := by
  have hmem : (bTreeSet u64Layout (words 3)).InMemory .bits64 :=
    ⟨by decide, by decide, fun h => nomatch h⟩
  have hreturns : (bTreeSet u64Layout (words 3)).elementsChildren [] .new = some (0, .new) := rfl
  exact (covers_elements_iff hmem (.inl rfl) hreturns).mpr
    ⟨by decide, .inr (.inr ⟨by decide, by decide⟩)⟩

/-- A node is taken to hold 5 elements, not 11, which leaves 23 bytes to each string. -/
theorem bTreeSet_undercounts :
    (bTreeSet stringLayout (strings 1)).elementsChildren [] .new = some (5, .new) ∧
      ¬ ∃ n e, (bTreeSet stringLayout (strings 1)).deepSizeOfChildren .bits64 [] .new =
        some (n, e) ∧
        (bTreeSet stringLayout (strings 1)).len * stringLayout.size + 5 ≤ n.toNat := by
  refine ⟨rfl, ?_⟩
  rintro ⟨n, e, hn, hle⟩
  have h28 : some ((28#64 : BitVec 64), Context.new) = some (n, e) := hn
  cases h28
  revert hle
  decide

end Collection
end PriorityLfu.Deepsize
