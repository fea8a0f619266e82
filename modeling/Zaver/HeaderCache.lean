import Zaver.Lib.Ring
import Zaver.Lib.Runs

/-!
# Header nodes and their cache

`list.h`, `http_header_cache.c`, the loops of `zv_http_handle_header` and
`zv_free_request_t`, and the step of `zv_http_parse_request_body` that stores a header.
The heap holds the links of the header nodes, of the lists of all requests and of the list
of free nodes; a node is relinked into the free list while the list of its request is
walked. `malloc` answers with a block that is not in use, or not at all.

Result: `header_nodes_disciplined`.
-/

namespace Zaver

open LinkedRing Runs

/-- The heads: `g_free_headers`, and `r->list` of each request. -/
inductive HeaderHead
  | free
  | req (r : Nat)
deriving DecidableEq, Repr

/-- The heap of header nodes. `blocks` are the nodes that came from `malloc` and were not
returned, `opens` the requests whose list is initialised; `added` records the headers that
were stored in a list since it was last emptied, the last one first. -/
structure HeaderHeap (δ : Type) where
  links : Links (HeaderHead ⊕ Nat)
  content : Nat → δ
  freeCount : Nat
  inited : Bool
  blocks : Finset Nat
  opens : Finset Nat
  added : Nat → List δ

def ZV_HEADER_FREELIST_MAX : Nat := 8192

variable {δ : Type} [Inhabited δ]

/-- Nothing is allocated yet; the memory holds anything. -/
def headerStart (links : Links (HeaderHead ⊕ Nat)) (content : Nat → δ) : HeaderHeap δ :=
  { links := links, content := content, freeCount := 0, inited := false, blocks := ∅, opens := ∅
    added := fun _ => [] }

/-- `init_once`. -/
def initOnce (h : HeaderHeap δ) : HeaderHeap δ :=
  if h.inited then h
  else { h with links := h.links.init (.inl .free), freeCount := 0, inited := true }

/-- `memset(hd, 0, sizeof(*hd))` and `INIT_LIST_HEAD(&hd->list)`. -/
def clearNode (h : HeaderHeap δ) (hd : Nat) : HeaderHeap δ :=
  { h with content := Function.update h.content hd default, links := h.links.init (.inr hd) }

/-- `zv_http_header_alloc`. -/
def zvHttpHeaderAlloc (h : HeaderHeap δ) (malloc : Option Nat) : HeaderHeap δ × Option Nat :=
  let h := initOnce h
  if h.links.empty (.inl .free) = false then
    match h.links.next (.inl .free) with
    | .inl _ => (h, none)
    | .inr hd =>
      (clearNode
        { h with
          links := h.links.del (.inr hd)
          freeCount := if h.freeCount > 0 then h.freeCount - 1 else h.freeCount } hd, some hd)
  else
    match malloc with
    | none => (h, none)
    | some hd => (clearNode { h with blocks := insert hd h.blocks } hd, some hd)

/-- `zv_http_header_free`. -/
def zvHttpHeaderFree (h : HeaderHeap δ) (hd : Nat) : HeaderHeap δ :=
  let h := initOnce h
  if h.freeCount ≥ ZV_HEADER_FREELIST_MAX then { h with blocks := h.blocks.erase hd }
  else
    let h := clearNode h hd
    { h with links := h.links.add (.inr hd) (.inl .free), freeCount := h.freeCount + 1 }

/-- The loop over the headers of `r`, with the nodes it comes to and what they hold. Its body
ends with `list_del` and `zv_http_header_free`. None when it leaves the nodes, or goes on
for more than `fuel` rounds. -/
def walkHeaders (r : Nat) :
    Nat → HeaderHeap δ → HeaderHead ⊕ Nat → Option (HeaderHeap δ × List (Nat × δ))
  | 0, _, _ => none
  | fuel + 1, h, pos =>
    if pos = .inl (.req r) then some (h, [])
    else
      match pos with
      | .inl _ => none
      | .inr hd =>
        let next := h.links.next (.inr hd)
        (walkHeaders r fuel (zvHttpHeaderFree { h with links := h.links.del (.inr hd) } hd) next).map
          fun (h', visited) => (h', (hd, h.content hd) :: visited)

/-- `zv_http_handle_header`, as to the nodes of the list. -/
def zvHttpHandleHeaderList (h : HeaderHeap δ) (r : Nat) : Option (HeaderHeap δ × List (Nat × δ)) :=
  walkHeaders r (h.blocks.card + 1) h (h.links.next (.inl (.req r)))

/-- `zv_free_request_t`, as to the nodes of the list. -/
def zvFreeRequestList (h : HeaderHeap δ) (r : Nat) : Option (HeaderHeap δ × List (Nat × δ)) :=
  (walkHeaders r (h.blocks.card + 1) h (h.links.next (.inl (.req r)))).map
    fun (h, visited) => ({ h with links := h.links.init (.inl (.req r)) }, visited)

/-- The header that `zv_http_parse_request_body` has read is stored. -/
def storeHeader (h : HeaderHeap δ) (r : Nat) (header : δ) (malloc : Option Nat) : HeaderHeap δ :=
  match zvHttpHeaderAlloc h malloc with
  | (h, none) => h
  | (h, some hd) =>
    { h with
      content := Function.update h.content hd header
      links := h.links.add (.inr hd) (.inl (.req r))
      added := Function.update h.added r (header :: h.added r) }

/-- What happens to the headers of a request `r`. -/
inductive HeaderAct (δ : Type)
  | accept (r : Nat)
  | store (r : Nat) (header : δ) (malloc : Option Nat)
  | handle (r : Nat)
  | teardown (r : Nat)

/-- One step, none when it is not possible. -/
def headerStep (h : HeaderHeap δ) : HeaderAct δ → Option (HeaderHeap δ)
  | .accept r =>
    if r ∈ h.opens then none
    else
      some { h with
        links := h.links.init (.inl (.req r)), opens := insert r h.opens
        added := Function.update h.added r [] }
  | .store r header malloc =>
    if r ∈ h.opens ∧ ∀ hd ∈ malloc, hd ∉ h.blocks then some (storeHeader h r header malloc) else none
  | .handle r =>
    if r ∈ h.opens then
      (zvHttpHandleHeaderList h r).map fun (h, _) =>
        { h with added := Function.update h.added r [] }
    else none
  | .teardown r =>
    if r ∈ h.opens then
      (zvFreeRequestList h r).map fun (h, _) =>
        { h with opens := h.opens.erase r, added := Function.update h.added r [] }
    else none

/-- The heads that are initialised. -/
def HeaderHeap.heads (h : HeaderHeap δ) : Set HeaderHead
  | .free => h.inited = true
  | .req r => r ∈ h.opens

namespace HeaderCacheLemmas

/-- The invariant: the rings of the heads, with at most one node between them, and the number
of free nodes. -/
structure HeaderOk (h : HeaderHeap δ) (ring : HeaderHead → List Nat) (hand : Option Nat) : Prop where
  rings : Rings h.links h.heads ring hand h.blocks
  count : h.freeCount = (ring .free).length
  bound : (ring .free).length ≤ ZV_HEADER_FREELIST_MAX
  idle : h.inited = false → ring .free = []

/-- The nodes of each list hold the headers that were stored. -/
def Contents (h : HeaderHeap δ) (ring : HeaderHead → List Nat) : Prop :=
  ∀ r ∈ h.opens, (ring (.req r)).map h.content = h.added r

variable {h : HeaderHeap δ} {ring : HeaderHead → List Nat} {hand : Option Nat}

theorem req_ne_free (r : Nat) : HeaderHead.req r ≠ .free := fun hx => by cases hx

omit [Inhabited δ] in
theorem initOnce_inited (h : HeaderHeap δ) : (initOnce h).inited = true := by
  unfold initOnce
  split
  · assumption
  · rfl

omit [Inhabited δ] in
/-- What `init_once` leaves as it is. -/
theorem initOnce_frame (h : HeaderHeap δ) :
    (initOnce h).content = h.content ∧ (initOnce h).blocks = h.blocks ∧
      (initOnce h).opens = h.opens ∧ (initOnce h).added = h.added := by
  unfold initOnce
  split
  · exact ⟨rfl, rfl, rfl, rfl⟩
  · exact ⟨rfl, rfl, rfl, rfl⟩

omit [Inhabited δ] in
theorem initOnce_ok (hok : HeaderOk h ring hand) : HeaderOk (initOnce h) ring hand := by
  unfold initOnce
  split
  · exact hok
  · next hno =>
    have hfree : ring .free = [] := hok.idle (Bool.eq_false_of_not_eq_true hno)
    have hrings := hok.rings.init_head (k := .free) fun _ => hfree
    rw [show Function.update ring .free [] = ring by rw [← hfree, Function.update_eq_self]] at hrings
    have hheads : insert HeaderHead.free h.heads =
        { h with links := h.links.init (.inl .free), freeCount := 0, inited := true }.heads := by
      ext k
      cases k with
      | free => exact ⟨fun _ => rfl, fun _ => Set.mem_insert _ _⟩
      | req r => exact ⟨fun hk => (Set.mem_insert_iff.mp hk).resolve_left (fun hx => by cases hx),
          fun hk => Set.mem_insert_of_mem _ hk⟩
    rw [hheads] at hrings
    exact ⟨hrings, by rw [hfree]; rfl, hok.bound, fun hx => by cases hx⟩

theorem clearNode_ok {hd : Nat} (hok : HeaderOk h ring (some hd)) :
    HeaderOk (clearNode h hd) ring (some hd) :=
  ⟨hok.rings.init_hand, hok.count, hok.bound, hok.idle⟩

/-- What a call leaves as it is: the requests, their headers, and the contents of the nodes but
`ns`. -/
structure Frame (h h' : HeaderHeap δ) (ns : List Nat) : Prop where
  opens : h'.opens = h.opens
  added : h'.added = h.added
  content : ∀ m, m ∉ ns → h'.content m = h.content m

omit [Inhabited δ] in
theorem Frame.trans {h1 h2 h3 : HeaderHeap δ} {ns ms : List Nat} (h12 : Frame h1 h2 ns)
    (h23 : Frame h2 h3 ms) : Frame h1 h3 (ns ++ ms) := by
  refine ⟨h23.opens.trans h12.opens, h23.added.trans h12.added, fun m hm => ?_⟩
  rw [h23.content m fun hx => hm (List.mem_append_right _ hx),
    h12.content m fun hx => hm (List.mem_append_left _ hx)]

theorem clearNode_frame (h : HeaderHeap δ) (hd : Nat) : Frame h (clearNode h hd) [hd] := by
  refine ⟨rfl, rfl, fun m hm => ?_⟩
  exact Function.update_of_ne (fun heq => hm (List.mem_singleton.mpr heq)) _ _

omit [Inhabited δ] in
theorem initOnce_frame_nil (h : HeaderHeap δ) : Frame h (initOnce h) [] := by
  obtain ⟨hcontent, -, hopens, hadded⟩ := initOnce_frame h
  exact ⟨hopens, hadded, fun m _ => congrFun hcontent m⟩

/-- `zv_http_header_free` gives the node in the hand to the free list, or back to `malloc`. -/
theorem zvHttpHeaderFree_ok {hd : Nat} (hok : HeaderOk h ring (some hd)) :
    ∃ ring', HeaderOk (zvHttpHeaderFree h hd) ring' none ∧
      (∀ r, ring' (.req r) = ring (.req r)) ∧ Frame h (zvHttpHeaderFree h hd) [hd] := by
  have hinit := initOnce_ok hok
  have hframe := initOnce_frame_nil h
  have hin := initOnce_inited h
  unfold zvHttpHeaderFree
  dsimp only
  generalize initOnce h = g at hinit hframe hin ⊢
  split
  · refine ⟨ring, ⟨?_, hinit.count, hinit.bound, hinit.idle⟩, fun _ => rfl, hframe.opens,
      hframe.added, fun m _ => hframe.content m List.not_mem_nil⟩
    have hdrop := hinit.rings.drop
    rw [← Finset.coe_erase] at hdrop
    exact hdrop
  · next hroom =>
    have hclear := clearNode_ok hinit
    have hcount := hinit.count
    have hadd := hclear.rings.add (k := .free) hin
    refine ⟨Function.update ring .free (hd :: ring .free), ⟨hadd, ?_, ?_, fun hx => ?_⟩, fun r => ?_, ?_⟩
    · rw [Function.update_self, List.length_cons, ← hcount]
      rfl
    · rw [Function.update_self, List.length_cons, ← hcount]
      exact Nat.not_le.mp hroom
    · exact absurd (hin.symm.trans hx) (fun hy => by cases hy)
    · exact Function.update_of_ne (req_ne_free r) _ _
    · have htrans := hframe.trans (clearNode_frame g hd)
      exact ⟨htrans.opens, htrans.added, htrans.content⟩

/-- `zv_http_header_alloc` takes a node of the free list, or a new one, into the hand. -/
theorem zvHttpHeaderAlloc_ok (hok : HeaderOk h ring none) {malloc : Option Nat}
    (hnew : ∀ hd ∈ malloc, hd ∉ h.blocks) {h' : HeaderHeap δ} {res : Option Nat}
    (hres : zvHttpHeaderAlloc h malloc = (h', res)) :
    ∃ ring', HeaderOk h' ring' res ∧ (∀ r, ring' (.req r) = ring (.req r)) ∧
      Frame h h' res.toList := by
  have hinit := initOnce_ok hok
  have hframe := initOnce_frame_nil h
  have hin := initOnce_inited h
  have hblocks := (initOnce_frame h).2.1
  unfold zvHttpHeaderAlloc at hres
  dsimp only at hres
  generalize initOnce h = g at hinit hframe hin hblocks hres
  have hfreering := hinit.rings.rings .free hin
  split at hres
  · next hne =>
    cases hring : ring .free with
    | nil =>
      rw [hring] at hfreering
      rw [hfreering.empty_iff.mpr rfl] at hne
      cases hne
    | cons n ns =>
      rw [hring] at hfreering
      have hnext : g.links.next (.inl .free) = .inr n := hfreering.next_head
      rw [hnext] at hres
      obtain ⟨rfl, rfl⟩ := Prod.mk.inj hres
      have hcount := hinit.count
      have hbound := hinit.bound
      rw [hring, List.length_cons] at hcount hbound
      have hdel := hinit.rings.del (k := .free) hin hring
      have hhand : HeaderOk
          { g with
            links := g.links.del (.inr n)
            freeCount := if g.freeCount > 0 then g.freeCount - 1 else g.freeCount }
          (Function.update ring .free ns) (some n) := by
        refine ⟨hdel, ?_, ?_, fun hx => absurd (hin.symm.trans hx) (fun hy => by cases hy)⟩
        · rw [Function.update_self]
          show (if g.freeCount > 0 then g.freeCount - 1 else g.freeCount) = ns.length
          rw [if_pos (by omega), hcount, Nat.add_sub_cancel]
        · rw [Function.update_self]
          exact Nat.le_of_succ_le hbound
      refine ⟨Function.update ring .free ns, clearNode_ok hhand, fun r => ?_, ?_⟩
      · exact Function.update_of_ne (req_ne_free r) _ _
      · have htrans := hframe.trans (clearNode_frame g n)
        exact ⟨htrans.opens, htrans.added, htrans.content⟩
  · cases malloc with
    | none =>
      obtain ⟨rfl, rfl⟩ := Prod.mk.inj hres
      exact ⟨ring, hinit, fun _ => rfl, hframe⟩
    | some n =>
      obtain ⟨rfl, rfl⟩ := Prod.mk.inj hres
      have hout : n ∉ (g.blocks : Set Nat) := by
        rw [hblocks]
        exact fun hx => hnew n rfl (Finset.mem_coe.mp hx)
      have htake := hinit.rings.take hout
      rw [← Finset.coe_insert] at htake
      have hhand : HeaderOk { g with blocks := insert n g.blocks } ring (some n) :=
        ⟨htake, hinit.count, hinit.bound, hinit.idle⟩
      refine ⟨ring, clearNode_ok hhand, fun _ => rfl, ?_⟩
      have htrans := hframe.trans (clearNode_frame g n)
      exact ⟨htrans.opens, htrans.added, htrans.content⟩

/-- The loop takes every node of the list, once each and in order, and empties the list. -/
theorem walkHeaders_ok {r : Nat} (ns : List Nat) {fuel : Nat} {h : HeaderHeap δ}
    {ring : HeaderHead → List Nat} (hok : HeaderOk h ring none) (hr : r ∈ h.opens)
    (hring : ring (.req r) = ns) (hfuel : ns.length < fuel) :
    ∃ h' ring', walkHeaders r fuel h ((ns.map Sum.inr).headD (.inl (.req r))) =
        some (h', ns.map fun n => (n, h.content n)) ∧
      HeaderOk h' ring' none ∧ ring' (.req r) = [] ∧
      (∀ r', r' ≠ r → ring' (.req r') = ring (.req r')) ∧ Frame h h' ns := by
  induction ns generalizing fuel h ring with
  | nil =>
    cases fuel with
    | zero => exact absurd hfuel (Nat.not_lt_zero _)
    | succ fuel =>
      refine ⟨h, ring, ?_, hok, hring, fun _ _ => rfl, rfl, rfl, fun _ _ => rfl⟩
      show walkHeaders r (fuel + 1) h (.inl (.req r)) = _
      unfold walkHeaders
      exact if_pos rfl
  | cons n ns ih =>
    cases fuel with
    | zero => exact absurd hfuel (Nat.not_lt_zero _)
    | succ fuel =>
      have hfirst := hok.rings.rings (.req r) hr
      rw [hring, List.map_cons] at hfirst
      have hnodup := hok.rings.nodup (k := .req r) hr
      rw [hring] at hnodup
      have hdel := hok.rings.del (k := .req r) hr hring
      -- the node is in the hand between `list_del` and `zv_http_header_free`
      have hhand : HeaderOk { h with links := h.links.del (.inr n) }
          (Function.update ring (.req r) ns) (some n) := by
        have hsame : Function.update ring (.req r) ns .free = ring .free :=
          Function.update_of_ne (req_ne_free r).symm _ _
        exact ⟨hdel, by rw [hsame]; exact hok.count, by rw [hsame]; exact hok.bound,
          by rw [hsame]; exact hok.idle⟩
      obtain ⟨ring2, hok2, hreq2, hframe2⟩ := zvHttpHeaderFree_ok hhand
      have hring2 : ring2 (.req r) = ns := by rw [hreq2, Function.update_self]
      have hr2 : r ∈ (zvHttpHeaderFree { h with links := h.links.del (.inr n) } n).opens := by
        rw [hframe2.opens]
        exact hr
      obtain ⟨h', ring', hwalk, hok', hempty, hothers, hframe⟩ :=
        ih hok2 hr2 hring2 (Nat.lt_of_succ_lt_succ hfuel)
      refine ⟨h', ring', ?_, hok', hempty, fun r' hr' => ?_, ?_⟩
      · rw [List.map_cons, List.headD_cons, walkHeaders, if_neg (fun hx => by cases hx)]
        dsimp only
        rw [hfirst.next_first, hwalk, Option.map_some]
        have hcontents : (ns.map fun m =>
            (m, (zvHttpHeaderFree { h with links := h.links.del (.inr n) } n).content m)) =
            ns.map fun m => (m, h.content m) := by
          refine List.map_congr_left fun m hm => ?_
          rw [hframe2.content m fun hx => ?_]
          exact (List.nodup_cons.mp hnodup).1 (List.mem_singleton.mp hx ▸ hm)
        rw [hcontents]
        rfl
      · rw [hothers r' hr', hreq2, Function.update_of_ne fun hx => hr' (HeaderHead.req.inj hx)]
      · have htrans := hframe2.trans hframe
        exact ⟨htrans.opens, htrans.added, htrans.content⟩

/-- The loop from the head of the list; there are no more rounds than nodes. -/
theorem walk_from_head {r : Nat} (hok : HeaderOk h ring none) (hr : r ∈ h.opens) :
    ∃ h' ring', walkHeaders r (h.blocks.card + 1) h (h.links.next (.inl (.req r))) =
        some (h', (ring (.req r)).map fun n => (n, h.content n)) ∧
      HeaderOk h' ring' none ∧ ring' (.req r) = [] ∧
      (∀ r', r' ≠ r → ring' (.req r') = ring (.req r')) ∧ Frame h h' (ring (.req r)) := by
  have hnodup := hok.rings.nodup (k := .req r) hr
  have hsub : (ring (.req r)).toFinset ⊆ h.blocks := by
    intro n hn
    exact Finset.mem_coe.mp ((hok.rings.total n).mpr (Or.inr ⟨.req r, hr, List.mem_toFinset.mp hn⟩))
  have hlen : (ring (.req r)).length ≤ h.blocks.card := by
    rw [← List.toFinset_card_of_nodup hnodup]
    exact Finset.card_le_card hsub
  rw [(hok.rings.rings (.req r) hr).next_head]
  exact walkHeaders_ok (ring (.req r)) hok hr rfl (Nat.lt_succ_of_le hlen)

omit [Inhabited δ] in
/-- The lists of the other requests hold what they held. -/
theorem contents_after_walk {r : Nat} {h' : HeaderHeap δ} {ring' : HeaderHead → List Nat}
    (hok : HeaderOk h ring none) (hcontents : Contents h ring) (hr : r ∈ h.opens)
    (hothers : ∀ r', r' ≠ r → ring' (.req r') = ring (.req r'))
    (hframe : Frame h h' (ring (.req r))) {r' : Nat} (hr' : r' ∈ h.opens) (hne : r' ≠ r) :
    (ring' (.req r')).map h'.content = h.added r' := by
  rw [hothers r' hne, ← hcontents r' hr']
  refine List.map_congr_left fun n hn => hframe.content n fun hmem => hne ?_
  exact HeaderHead.req.inj (hok.rings.apart (.req r') hr' (.req r) hr n hn hmem)

theorem storeHeader_ok (hok : HeaderOk h ring none) (hcontents : Contents h ring) {r : Nat}
    (hr : r ∈ h.opens) (header : δ) {malloc : Option Nat} (hnew : ∀ hd ∈ malloc, hd ∉ h.blocks) :
    ∃ ring', HeaderOk (storeHeader h r header malloc) ring' none ∧
      Contents (storeHeader h r header malloc) ring' := by
  unfold storeHeader
  generalize hres : zvHttpHeaderAlloc h malloc = res
  obtain ⟨g, res⟩ := res
  obtain ⟨ring', hok', hsame, hframe⟩ := zvHttpHeaderAlloc_ok hok hnew hres
  cases res with
  | none =>
    refine ⟨ring', hok', fun r' hr' => ?_⟩
    have hr'' : r' ∈ h.opens := hframe.opens ▸ hr'
    dsimp only
    rw [hsame, hframe.added, ← hcontents r' hr'']
    exact List.map_congr_left fun n _ => hframe.content n List.not_mem_nil
  | some hd =>
    have hrg : r ∈ g.opens := hframe.opens ▸ hr
    have hadd := hok'.rings.add (k := .req r) hrg
    have hfree : Function.update ring' (.req r) (hd :: ring' (.req r)) .free = ring' .free :=
      Function.update_of_ne (req_ne_free r).symm _ _
    refine ⟨Function.update ring' (.req r) (hd :: ring' (.req r)), ⟨hadd, ?_, ?_, ?_⟩,
      fun r' hr' => ?_⟩
    · rw [hfree]
      exact hok'.count
    · rw [hfree]
      exact hok'.bound
    · rw [hfree]
      exact hok'.idle
    · have hr'' : r' ∈ h.opens := hframe.opens ▸ hr'
      -- the new node is in no list, so the others still hold their headers
      have hold : ∀ r'' ∈ h.opens,
          (ring (.req r'')).map (Function.update g.content hd header) = h.added r'' := by
        intro r'' hmem
        rw [← hcontents r'' hmem]
        refine List.map_congr_left fun n hn => ?_
        have hne : n ≠ hd := by
          rintro rfl
          rw [← hsame] at hn
          have hopen : r'' ∈ g.opens := hframe.opens ▸ hmem
          exact hok'.rings.in_hand n rfl (.req r'') hopen hn
        rw [Function.update_of_ne hne]
        exact hframe.content n fun hx => hne (List.mem_singleton.mp hx)
      dsimp only
      by_cases heq : r' = r
      · subst heq
        rw [Function.update_self, Function.update_self, List.map_cons, Function.update_self, hsame,
          hold r' hr'', hframe.added]
      · rw [Function.update_of_ne heq, Function.update_of_ne fun hx => heq (HeaderHead.req.inj hx),
          hsame, hold r' hr'', hframe.added]

/-- Every step keeps the invariant. -/
theorem headerStep_ok {a : HeaderAct δ} {h' : HeaderHeap δ} (hok : HeaderOk h ring none)
    (hcontents : Contents h ring) (hstep : headerStep h a = some h') :
    ∃ ring', HeaderOk h' ring' none ∧ Contents h' ring' := by
  cases a with
  | accept r =>
    unfold headerStep at hstep
    dsimp only at hstep
    split at hstep
    · cases hstep
    · next hr =>
      obtain rfl := Option.some.inj hstep
      have hinit := hok.rings.init_head (k := .req r) fun hx => absurd hx hr
      have hheads : insert (HeaderHead.req r) h.heads =
          { h with
            links := h.links.init (.inl (.req r)), opens := insert r h.opens
            added := Function.update h.added r [] }.heads := by
        ext k
        cases k with
        | free => exact ⟨fun hk => (Set.mem_insert_iff.mp hk).resolve_left (fun hx => by cases hx),
            fun hk => Set.mem_insert_of_mem _ hk⟩
        | req r' =>
          constructor
          · intro hk
            refine Finset.mem_insert.mpr ?_
            exact (Set.mem_insert_iff.mp hk).imp HeaderHead.req.inj id
          · intro hk
            refine Set.mem_insert_iff.mpr ?_
            exact (Finset.mem_insert.mp hk).imp (congrArg HeaderHead.req) id
      rw [hheads] at hinit
      have hfree : Function.update ring (.req r) [] .free = ring .free :=
        Function.update_of_ne (req_ne_free r).symm _ _
      refine ⟨Function.update ring (.req r) [], ⟨hinit, by rw [hfree]; exact hok.count,
        by rw [hfree]; exact hok.bound, by rw [hfree]; exact hok.idle⟩, fun r' hr' => ?_⟩
      dsimp only
      by_cases heq : r' = r
      · subst heq
        rw [Function.update_self, Function.update_self]
        rfl
      · rw [Function.update_of_ne heq, Function.update_of_ne fun hx => heq (HeaderHead.req.inj hx)]
        exact hcontents r' ((Finset.mem_insert.mp hr').resolve_left heq)
  | store r header malloc =>
    unfold headerStep at hstep
    dsimp only at hstep
    split at hstep
    · next hpre =>
      obtain rfl := Option.some.inj hstep
      exact storeHeader_ok hok hcontents hpre.1 header hpre.2
    · cases hstep
  | handle r =>
    unfold headerStep zvHttpHandleHeaderList at hstep
    dsimp only at hstep
    split at hstep
    · next hr =>
      obtain ⟨g, ring', hwalk, hok', hempty, hothers, hframe⟩ := walk_from_head hok hr
      rw [hwalk] at hstep
      obtain rfl := Option.some.inj hstep
      refine ⟨ring', ⟨hok'.rings, hok'.count, hok'.bound, hok'.idle⟩, fun r' hr' => ?_⟩
      have hr'' : r' ∈ h.opens := hframe.opens ▸ hr'
      dsimp only
      by_cases heq : r' = r
      · subst heq
        rw [Function.update_self, hempty]
        rfl
      · rw [Function.update_of_ne heq, hframe.added]
        exact contents_after_walk hok hcontents hr hothers hframe hr'' heq
    · cases hstep
  | teardown r =>
    unfold headerStep zvFreeRequestList at hstep
    dsimp only at hstep
    split at hstep
    · next hr =>
      obtain ⟨g, ring', hwalk, hok', hempty, hothers, hframe⟩ := walk_from_head hok hr
      rw [hwalk] at hstep
      obtain rfl := Option.some.inj hstep
      have hinit := (hok'.rings.init_head (k := .req r) fun _ => hempty).forget (k := .req r)
        (Function.update_self _ _ _)
      have hheads : insert (HeaderHead.req r) g.heads \ {HeaderHead.req r} =
          { g with
            links := g.links.init (.inl (.req r)), opens := g.opens.erase r
            added := Function.update g.added r [] }.heads := by
        ext k
        cases k with
        | free => exact ⟨fun hk => (Set.mem_insert_iff.mp hk.1).resolve_left (fun hx => by cases hx),
            fun hk => ⟨Set.mem_insert_of_mem _ hk, fun hx => by cases hx⟩⟩
        | req r' =>
          constructor
          · rintro ⟨hk, hne⟩
            refine Finset.mem_erase.mpr ⟨fun heq => hne (congrArg HeaderHead.req heq), ?_⟩
            exact (Set.mem_insert_iff.mp hk).resolve_left hne
          · intro hk
            obtain ⟨hne, hmem⟩ := Finset.mem_erase.mp hk
            exact ⟨Set.mem_insert_of_mem _ hmem, fun heq => hne (HeaderHead.req.inj heq)⟩
      rw [show Function.update ring' (.req r) [] = ring' by rw [← hempty, Function.update_eq_self],
        hheads] at hinit
      refine ⟨ring', ⟨hinit, hok'.count, hok'.bound, hok'.idle⟩, fun r' hr' => ?_⟩
      obtain ⟨hne, hmem⟩ := Finset.mem_erase.mp hr'
      dsimp only
      rw [Function.update_of_ne hne, hframe.added]
      exact contents_after_walk hok hcontents hr hothers hframe (hframe.opens ▸ hmem) hne
    · cases hstep

omit [Inhabited δ] in
theorem headerStart_ok (links : Links (HeaderHead ⊕ Nat)) (content : Nat → δ) :
    HeaderOk (headerStart links content) (fun _ => []) none := by
  have hnone : ∀ k, k ∉ (headerStart links content).heads := by
    intro k hk
    cases k with
    | free => cases hk
    | req r => exact absurd hk (Finset.notMem_empty r)
  refine ⟨⟨fun k hk => absurd hk (hnone k), fun k hk => absurd hk (hnone k),
    (fun n hn => by cases hn), fun n => ?_⟩, rfl, Nat.zero_le _, fun _ => rfl⟩
  constructor
  · intro hn
    exact absurd (Finset.mem_coe.mp hn) (Finset.notMem_empty n)
  · rintro (hn | ⟨k, hk, -⟩)
    · cases hn
    · exact absurd hk (hnone k)

end HeaderCacheLemmas

open HeaderCacheLemmas

/-- The header nodes of a heap: the rings, and where each node is. -/
structure Disciplined (h : HeaderHeap δ) (free : List Nat) (lists : Nat → List Nat) : Prop where
  free_ring : h.inited = true → IsRing h.links (.inl .free) (free.map .inr)
  ring : ∀ r ∈ h.opens, IsRing h.links (.inl (.req r)) ((lists r).map .inr)
  once : ∀ n ∈ h.blocks, (n ∈ free ∧ ∀ r ∈ h.opens, n ∉ lists r) ∨
    (n ∉ free ∧ ∃! r, r ∈ h.opens ∧ n ∈ lists r)
  known : (∀ n ∈ free, n ∈ h.blocks) ∧ ∀ r ∈ h.opens, ∀ n ∈ lists r, n ∈ h.blocks
  count : h.freeCount = free.length ∧ h.freeCount ≤ ZV_HEADER_FREELIST_MAX
  handled : ∀ r ∈ h.opens, (lists r).Nodup ∧ (lists r).map h.content = h.added r ∧
    ∃ h', zvHttpHandleHeaderList h r = some (h', (lists r).map fun n => (n, h.content n)) ∧
      h'.links.empty (.inl (.req r)) = true
  freed : ∀ r ∈ h.opens,
    ∃ h', zvFreeRequestList h r = some (h', (lists r).map fun n => (n, h.content n)) ∧
      h'.links.empty (.inl (.req r)) = true

/-- In every run the list of each request and the list of free nodes are rings, each node that
was not returned to `malloc` is in exactly one of them, the free nodes are counted, and a
walk over the list of a request comes to each of its headers once and leaves it empty. -/
theorem header_nodes_disciplined (links : Links (HeaderHead ⊕ Nat)) (content : Nat → δ)
    (acts : List (HeaderAct δ)) {h : HeaderHeap δ}
    (hrun : run headerStep (headerStart links content) acts = some h) :
    ∃ free lists, Disciplined h free lists := by
  have hinv : ∃ ring, HeaderOk h ring none ∧ Contents h ring := by
    refine run_invariant (P := fun h => ∃ ring, HeaderOk h ring none ∧ Contents h ring)
      (fun s a s' hs hstep => ?_) ⟨_, headerStart_ok links content, fun r hr => ?_⟩ hrun
    · obtain ⟨ring, hok, hcontents⟩ := hs
      exact headerStep_ok hok hcontents hstep
    · exact absurd hr (Finset.notMem_empty r)
  obtain ⟨ring, hok, hcontents⟩ := hinv
  have hfree : ∀ n ∈ ring .free, HeaderHead.free ∈ h.heads := by
    intro n hn
    refine Bool.eq_true_of_not_eq_false fun hno => ?_
    rw [hok.idle hno] at hn
    exact absurd hn List.not_mem_nil
  refine ⟨ring .free, fun r => ring (.req r), fun hin => hok.rings.rings .free hin,
    fun r hr => hok.rings.rings (.req r) hr, fun n hn => ?_, ⟨fun n hn => ?_, fun r hr n hn => ?_⟩,
    ⟨hok.count, hok.count ▸ hok.bound⟩, fun r hr => ?_, fun r hr => ?_⟩
  · rcases (hok.rings.total n).mp (Finset.mem_coe.mpr hn) with hx | ⟨k, hk, hmem⟩
    · cases hx
    · cases k with
      | free =>
        refine Or.inl ⟨hmem, fun r hr hx => ?_⟩
        exact req_ne_free r (hok.rings.apart (.req r) hr .free hk n hx hmem)
      | req r =>
        refine Or.inr ⟨fun hx => ?_, r, ⟨hk, hmem⟩, fun r' hr' => ?_⟩
        · exact req_ne_free r (hok.rings.apart (.req r) hk .free (hfree n hx) n hmem hx)
        · exact HeaderHead.req.inj (hok.rings.apart (.req r') hr'.1 (.req r) hk n hr'.2 hmem)
  · exact Finset.mem_coe.mp ((hok.rings.total n).mpr (Or.inr ⟨.free, hfree n hn, hn⟩))
  · exact Finset.mem_coe.mp ((hok.rings.total n).mpr (Or.inr ⟨.req r, hr, hn⟩))
  · obtain ⟨h', ring', hwalk, hok', hempty, -, hframe⟩ := walk_from_head hok hr
    refine ⟨hok.rings.nodup (k := .req r) hr, hcontents r hr, h', hwalk, ?_⟩
    have hr' : r ∈ h'.opens := hframe.opens ▸ hr
    refine (hok'.rings.rings (.req r) hr').empty_iff.mpr ?_
    rw [hempty]
    rfl
  · obtain ⟨h', ring', hwalk, -, -, -, -⟩ := walk_from_head hok hr
    refine ⟨{ h' with links := h'.links.init (.inl (.req r)) }, ?_, ?_⟩
    · unfold zvFreeRequestList
      rw [hwalk]
      rfl
    · exact (isRing_init _ _).empty_iff.mpr rfl

/-- Two requests with three headers, one of which is walked over. -/
def threeHeaders : List (HeaderAct Nat) :=
  [.accept 0, .accept 1, .store 0 7 (some 100), .store 1 8 (some 101), .store 0 9 (some 102),
    .handle 0, .store 1 6 none]

theorem header_nodes_disciplined_three :
    ∃ h free lists, run headerStep (headerStart ⟨id, id⟩ fun _ => 0) threeHeaders = some h ∧
      h.opens = {1, 0} ∧ h.blocks = {102, 101, 100} ∧ h.freeCount = 1 ∧ h.added 1 = [6, 8] ∧
      Disciplined h free lists := by
  obtain ⟨h, hh⟩ : ∃ h, run headerStep (headerStart ⟨id, id⟩ fun _ => 0) threeHeaders = some h :=
    ⟨_, rfl⟩
  obtain ⟨free, lists, hdis⟩ := header_nodes_disciplined ⟨id, id⟩ (fun _ => 0) threeHeaders hh
  refine ⟨h, free, lists, hh, ?_, ?_, ?_, ?_, hdis⟩
  all_goals
    obtain rfl := Option.some.inj hh
    decide +kernel

end Zaver
