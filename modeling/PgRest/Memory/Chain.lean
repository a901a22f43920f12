import PgRest.Lib.Chain

/-! `pgrest_chain_append` and the links it takes: from the free list of the pool, and from the allocator when
that is empty. The allocator is the list of the blocks it is going to grant; behind its end it fails. -/
namespace PgRest.Memory
open Lib

variable {β : Type}

/-- `pgrest_chain_t`. What has not been written is `none`, a NULL link is `some none`. -/
structure Link (β : Type) where
  buf : Option β
  next : Option (Option Nat)
deriving DecidableEq, Repr

/-- `pgrest_mpool_t`, with the memory its links are in. -/
structure Mpool (β : Type) where
  links : Nat → Option (Link β)
  chain : Option Nat
  fresh : List Nat
  unused : ∀ a ∈ fresh, links a = none
  distinct : fresh.Nodup

namespace Mpool

def next (pool : Mpool β) (a : Nat) : Option (Option Nat) := (pool.links a).bind Link.next

def buf (pool : Mpool β) (a : Nat) : Option β := (pool.links a).bind Link.buf

/-- A link is written, if there is one. -/
def modify (pool : Mpool β) (a : Nat) (f : Link β → Link β) : Mpool β where
  links := Function.update pool.links a ((pool.links a).map f)
  chain := pool.chain
  fresh := pool.fresh
  unused b hb := by
    have hnone := pool.unused b hb
    by_cases he : b = a
    · rw [he, Function.update_self, ← he, hnone, Option.map_none]
    · rw [Function.update_of_ne he, hnone]
  distinct := pool.distinct

/-- `cl->next = x` -/
def setNext (pool : Mpool β) (a : Nat) (x : Option Nat) : Mpool β :=
  pool.modify a fun link => { link with next := some x }

/-- `cl->buf = b` -/
def setBuf (pool : Mpool β) (a : Nat) (b : Option β) : Mpool β :=
  pool.modify a fun link => { link with buf := b }

/-- `pgrest_mpool_alloc`, of a link that nothing has been written to. -/
def alloc (pool : Mpool β) : Option Nat × Mpool β :=
  (pool.fresh.head?,
    { links := fun a => if pool.fresh.head? = some a then some ⟨none, none⟩ else pool.links a
      chain := pool.chain
      fresh := pool.fresh.tail
      unused := fun a ha => by
        have hdistinct := pool.distinct
        have hunused := pool.unused a (List.mem_of_mem_tail ha)
        cases hfresh : pool.fresh with
        | nil => simp [hfresh] at ha
        | cons b rest =>
          rw [hfresh, List.nodup_cons] at hdistinct
          rw [hfresh, List.tail_cons] at ha
          have hne : ¬some b = some a := fun he => hdistinct.1 (Option.some.inj he ▸ ha)
          rw [List.head?_cons, if_neg hne, hunused]
      distinct := pool.distinct.tail })

/-- `pgrest_chain_link_alloc`. It is none where the link at the head of the free list holds no next one. -/
def chainLinkAlloc (pool : Mpool β) : Option (Option Nat × Mpool β) :=
  match pool.chain with
  | some cl => (pool.next cl).map fun next => (some cl, { pool with chain := next })
  | none => some pool.alloc

/-- `pgrest_free_chain` -/
def freeChain (pool : Mpool β) (cl : Nat) : Mpool β := { pool.setNext cl pool.chain with chain := some cl }

end Mpool

/-- The first loop of `pgrest_chain_append`: it ends at the place that is NULL, which is `next` of a link,
or `*chain` where there is none. -/
def chainEnd (pool : Mpool β) : Nat → Option Nat → Option Nat → Option (Option Nat)
  | 0, _, _ => none
  | _ + 1, none, ll => some ll
  | fuel + 1, some cl, _ => (pool.next cl).bind fun next => chainEnd pool fuel next (some cl)

/-- `*ll = x` -/
def store (pool : Mpool β) (chain ll x : Option Nat) : Option Nat × Mpool β :=
  match ll with
  | none => (x, pool)
  | some a => (chain, pool.setNext a x)

/-- The second loop, with what follows it. -/
def appendLinks (pool : Mpool β) (chain ll : Option Nat) : Nat → Option Nat → Option (Bool × Option Nat × Mpool β)
  | 0, _ => none
  | _ + 1, none =>
    let (chain, pool) := store pool chain ll none
    some (true, chain, pool)
  | fuel + 1, some a =>
    pool.chainLinkAlloc.bind fun
      | (none, pool) => some (false, chain, pool)
      | (some cl, pool) =>
        let pool := pool.setBuf cl (pool.buf a)
        let (chain, pool) := store pool chain ll (some cl)
        (pool.next a).bind fun next => appendLinks pool chain (some cl) fuel next

/-- `pgrest_chain_append`: what it returns, with `*chain` and the pool as they are then. Both loops have
`fuel` rounds. -/
def chainAppend (fuel : Nat) (pool : Mpool β) (chain input : Option Nat) :
    Option (Bool × Option Nat × Mpool β) :=
  (chainEnd pool fuel chain none).bind fun ll => appendLinks pool chain ll fuel input

/-- The chain is the old buffers and the input's, in links that are not free, and the input is unchanged. -/
structure AppendedAll (pool : Mpool β) (old input : List Nat) (chain : Option Nat) (pool' : Mpool β) : Prop where
  whole : ∃ whole, Chained pool'.next chain whole ∧
    whole.map pool'.buf = old.map pool.buf ++ input.map pool.buf ∧ ∀ a ∈ whole, ¬OnChain pool'.next pool'.chain a
  input : ∀ a ∈ input, pool'.links a = pool.links a

/-- The chain is the old links with their buffers, and the first ones of the input. -/
structure AppendedSome (pool : Mpool β) (old input : List Nat) (chain : Option Nat) (pool' : Mpool β) : Prop where
  part : ∃ part, Chained pool'.next chain (old ++ part) ∧ part.map pool'.buf <+: input.map pool.buf
  old : old.map pool'.buf = old.map pool.buf

/-- What a call should come to. -/
def AppendOk (pool : Mpool β) (old input : List Nat) : Bool × Option Nat × Mpool β → Prop
  | (true, chain, pool') => AppendedAll pool old input chain pool'
  | (false, chain, pool') => AppendedSome pool old input chain pool'

variable {pool pool' : Mpool β} {chain chain' ll input x : Option Nat} {p free ins : List Nat} {a cl : Nat}

/-! ### Writing a link -/

theorem links_modify_of_ne (f : Link β → Link β) {b : Nat} (h : b ≠ a) : (pool.modify a f).links b = pool.links b :=
  Function.update_of_ne h _ _

theorem next_setNext (h : pool.links a ≠ none) (x : Option Nat) :
    (pool.setNext a x).next = Function.update pool.next a (some x) := by
  funext b
  by_cases hb : b = a
  · obtain ⟨link, hlink⟩ := Option.ne_none_iff_exists'.mp h
    simp [hb, Mpool.next, Mpool.setNext, Mpool.modify, hlink]
  · rw [Function.update_of_ne hb, Mpool.next, Mpool.setNext, links_modify_of_ne _ hb, Mpool.next]

@[simp] theorem buf_setNext (x : Option Nat) : (pool.setNext a x).buf = pool.buf := by
  funext b
  by_cases hb : b = a
  · cases hlink : pool.links a <;> simp [hb, Mpool.buf, Mpool.setNext, Mpool.modify, hlink]
  · rw [Mpool.buf, Mpool.setNext, links_modify_of_ne _ hb, Mpool.buf]

@[simp] theorem next_setBuf (b : Option β) : (pool.setBuf a b).next = pool.next := by
  funext c
  by_cases hc : c = a
  · cases hlink : pool.links a <;> simp [hc, Mpool.next, Mpool.setBuf, Mpool.modify, hlink]
  · rw [Mpool.next, Mpool.setBuf, links_modify_of_ne _ hc, Mpool.next]

theorem buf_setBuf (h : pool.links a ≠ none) (b : Option β) :
    (pool.setBuf a b).buf = Function.update pool.buf a b := by
  funext c
  by_cases hc : c = a
  · obtain ⟨link, hlink⟩ := Option.ne_none_iff_exists'.mp h
    simp [hc, Mpool.buf, Mpool.setBuf, Mpool.modify, hlink]
  · rw [Function.update_of_ne hc, Mpool.buf, Mpool.setBuf, links_modify_of_ne _ hc, Mpool.buf]

theorem links_modify_ne_none (f : Link β → Link β) {b : Nat} (h : pool.links b ≠ none) :
    (pool.modify a f).links b ≠ none := by
  by_cases hb : b = a
  · rw [hb] at h ⊢
    simpa [Mpool.modify] using h
  · rwa [links_modify_of_ne _ hb]

theorem links_of_next (h : pool.next a ≠ none) : pool.links a ≠ none := by
  intro hnone
  simp [Mpool.next, hnone] at h

/-- What is freed is the first link of the free list, which stays a chain. -/
theorem freeChain_chained (hfree : Chained pool.next pool.chain free) (hthere : pool.links cl ≠ none)
    (hcl : cl ∉ free) : Chained (pool.freeChain cl).next (pool.freeChain cl).chain (cl :: free) := by
  have hnext : (pool.freeChain cl).next = Function.update pool.next cl (some pool.chain) := next_setNext hthere _
  refine ⟨rfl, pool.chain, ?_, ?_⟩
  · rw [hnext, Function.update_self]
  · rw [hnext]
    exact hfree.update hcl _

/-! ### The place behind the last link -/

/-- What the place holds. -/
def held (pool : Mpool β) (chain : Option Nat) : Option Nat → Option (Option Nat)
  | none => some chain
  | some a => pool.next a

/-- The links follow each other from `chain` on, and `ll` is the place behind the last one. -/
inductive Opened (pool : Mpool β) (chain : Option Nat) : List Nat → Option Nat → Prop
  | empty : Opened pool chain [] none
  | link {q : List Nat} {w : Nat} (along : Along pool.next chain q (some w)) (there : pool.links w ≠ none)
      (once : w ∉ q) : Opened pool chain (q ++ [w]) (some w)

theorem Opened.along (h : Opened pool chain p ll) (hx : held pool chain ll = some x) : Along pool.next chain p x := by
  cases h with
  | empty => exact Option.some.inj hx
  | link along => exact along_concat.mpr ⟨along, hx⟩

/-- Where the place has not been written there is no chain. -/
theorem Opened.unwritten (h : Opened pool chain p ll) (hx : held pool chain ll = none) (m : List Nat) :
    ¬Chained pool.next chain m := by
  intro hc
  cases h with
  | empty => cases hx
  | @link q w along =>
    obtain ⟨rest, rfl, hrest⟩ := hc.behind along
    cases rest with
    | nil => cases hrest
    | cons b rest =>
      obtain ⟨hb, r, hr, -⟩ := hrest
      cases hb
      exact absurd (hx.symm.trans hr) (by simp)

theorem Opened.there (h : Opened pool chain p ll) : ∀ a ∈ p, pool.links a ≠ none := by
  cases h with
  | empty => exact fun a ha => absurd ha List.not_mem_nil
  | @link q w along there =>
    intro a ha
    rcases List.mem_append.mp ha with ha | ha
    · exact links_of_next (along.written a ha)
    · rwa [List.mem_singleton.mp ha]

theorem links_store (h : Opened pool chain p ll) (x : Option Nat) {a : Nat} (ha : a ∉ p) :
    (store pool chain ll x).2.links a = pool.links a := by
  cases h with
  | empty => rfl
  | @link q w => exact links_modify_of_ne _ (fun he => ha (by simp [he]))

@[simp] theorem buf_store (x : Option Nat) : (store pool chain ll x).2.buf = pool.buf := by
  cases ll with
  | none => rfl
  | some w => exact buf_setNext x

@[simp] theorem fresh_store (x : Option Nat) : (store pool chain ll x).2.fresh = pool.fresh := by cases ll <;> rfl

@[simp] theorem chain_store (x : Option Nat) : (store pool chain ll x).2.chain = pool.chain := by cases ll <;> rfl

theorem next_store (h : Opened pool chain p ll) (x : Option Nat) {a : Nat} (ha : a ∉ p) :
    (store pool chain ll x).2.next a = pool.next a := by
  rw [Mpool.next, links_store h x ha, Mpool.next]

theorem Opened.store (h : Opened pool chain p ll) (x : Option Nat) :
    Opened (store pool chain ll x).2 (store pool chain ll x).1 p ll ∧
      held (store pool chain ll x).2 (store pool chain ll x).1 ll = some x := by
  cases h with
  | empty => exact ⟨.empty, rfl⟩
  | @link q w along there once =>
    have hnext : (pool.setNext w x).next = _ := next_setNext there x
    refine ⟨.link ?_ (links_modify_ne_none _ there) once, ?_⟩
    · show Along (pool.setNext w x).next chain q (some w)
      rw [hnext]
      exact along.update once _
    · show (pool.setNext w x).next w = some x
      rw [hnext, Function.update_self]

/-- The link that is put behind the last one is the last one then. -/
theorem Opened.push (h : Opened pool chain p ll) (hcl : cl ∉ p) (hthere : pool.links cl ≠ none) :
    Opened (Memory.store pool chain ll (some cl)).2 (Memory.store pool chain ll (some cl)).1 (p ++ [cl])
      (some cl) :=
  .link ((h.store (some cl)).1.along (h.store (some cl)).2) (by rwa [links_store h _ hcl]) hcl

/-! ### Taking a link -/

/-- The link comes from the free list with its next one, or from the allocator with none. -/
inductive Source (pool : Mpool β) (free : List Nat) (cl : Nat) (pool' : Mpool β) : List Nat → Prop
  | recycled {free' : List Nat} (spare : free = cl :: free') (fresh : pool'.fresh = pool.fresh)
      (next : pool'.next cl = some pool'.chain) : Source pool free cl pool' free'
  | allocated (spare : free = []) (fresh : pool.fresh = cl :: pool'.fresh) (next : pool'.next cl = none) :
      Source pool free cl pool' []

theorem Source.supply (h : Source pool free cl pool' ins) : free ++ pool.fresh = cl :: (ins ++ pool'.fresh) := by
  cases h with
  | recycled hfree hfresh => rw [hfree, hfresh, List.cons_append]
  | allocated hfree hfresh => rw [hfree, hfresh, List.nil_append, List.nil_append]

/-- What taking a link does to the pool. -/
structure Taken (pool : Mpool β) (free : List Nat) (cl : Nat) (pool' : Mpool β) (free' : List Nat) : Prop where
  call : pool.chainLinkAlloc = some (some cl, pool')
  source : Source pool free cl pool' free'
  spare : Chained pool'.next pool'.chain free'
  links : ∀ a, a ≠ cl → pool'.links a = pool.links a
  there : pool'.links cl ≠ none

theorem alloc_none (h : pool.fresh = []) : pool.alloc = (none, pool) := by
  obtain ⟨links, chain, fresh, unused, distinct⟩ := pool
  cases (h : fresh = [])
  simp [Mpool.alloc]

theorem take_link (hfree : Chained pool.next pool.chain free) (h : free ++ pool.fresh ≠ []) :
    ∃ cl pool' free', Taken pool free cl pool' free' := by
  cases free with
  | cons f free =>
    obtain ⟨hchain, next, hnext, hbelow⟩ := hfree
    refine ⟨f, { pool with chain := next }, free, ?_, .recycled rfl rfl hnext, hbelow, fun a _ => rfl, ?_⟩
    · rw [Mpool.chainLinkAlloc, hchain]
      simp only [hnext, Option.map_some]
    · have hthere : pool.links f ≠ none := links_of_next (by simp [hnext])
      exact hthere
  | nil =>
    have hchain : pool.chain = none := hfree
    obtain ⟨n, rest, hfresh⟩ := List.exists_cons_of_ne_nil h
    rw [List.nil_append] at hfresh
    have hnew : pool.alloc.2.links n = some ⟨none, none⟩ := by simp [Mpool.alloc, hfresh]
    refine ⟨n, pool.alloc.2, [], ?_, .allocated rfl (by simp [Mpool.alloc, hfresh]) ?_, hchain, ?_, ?_⟩
    · rw [Mpool.chainLinkAlloc, hchain]
      simp [Mpool.alloc, hfresh]
    · simp [Mpool.next, hnew]
    · intro a ha
      simp [Mpool.alloc, hfresh, Ne.symm ha]
    · simp [hnew]

theorem link_none (hfree : Chained pool.next pool.chain free) (h : free ++ pool.fresh = []) :
    pool.chainLinkAlloc = some (none, pool) := by
  obtain ⟨rfl, hfresh⟩ := List.append_eq_nil_iff.mp h
  have hchain : pool.chain = none := hfree
  rw [Mpool.chainLinkAlloc, hchain]
  simp only [alloc_none hfresh]

/-! ### The loop -/

/-- What the loop has before each round: a chain that is open at its end, links to take and links to read,
all of them different. -/
structure Growing (pool : Mpool β) (chain ll : Option Nat) (p free ins : List Nat) (input : Option Nat) : Prop where
  opened : Opened pool chain p ll
  spare : Chained pool.next pool.chain free
  read : Chained pool.next input ins
  supply : (free ++ pool.fresh).Nodup
  apart : ∀ a ∈ p, a ∉ free ++ pool.fresh
  inputApart : ∀ a ∈ ins, a ∉ p ∧ a ∉ free ++ pool.fresh

/-- What a round does: it puts the link `cl` behind the others, with the buffer of `a`. -/
structure Grows (pool : Mpool β) (p free : List Nat) (a cl : Nat) (pool' : Mpool β) (free' : List Nat) : Prop where
  source : Source pool free cl pool' free'
  links : ∀ b, b ∉ p → b ≠ cl → pool'.links b = pool.links b
  bufs : ∀ b, b ≠ cl → pool'.buf b = pool.buf b
  buf : pool'.buf cl = pool.buf a

theorem buf_of_links {b : Nat} (h : pool'.links b = pool.links b) : pool'.buf b = pool.buf b := by
  rw [Mpool.buf, h, Mpool.buf]

theorem next_of_links {b : Nat} (h : pool'.links b = pool.links b) : pool'.next b = pool.next b := by
  rw [Mpool.next, h, Mpool.next]

theorem appendLinks_taken {taken : Mpool β} (h : pool.chainLinkAlloc = some (some cl, taken)) (fuel : Nat) :
    appendLinks pool chain ll (fuel + 1) (some a) =
      let stored := store (taken.setBuf cl (taken.buf a)) chain ll (some cl)
      (stored.2.next a).bind fun next => appendLinks stored.2 stored.1 (some cl) fuel next := by
  rw [appendLinks, h]
  rfl

/-- The link that has been taken has its buffer, and its place behind the others. -/
structure Placed (pool taken : Mpool β) (p : List Nat) (cl : Nat) (b : Option β) (chain' : Option Nat)
    (pool' : Mpool β) : Prop where
  opened : Opened pool' chain' (p ++ [cl]) (some cl)
  links : ∀ c, c ∉ p → c ≠ cl → pool'.links c = pool.links c
  nexts : ∀ c, c ∉ p → pool'.next c = taken.next c
  bufs : ∀ c, c ≠ cl → pool'.buf c = pool.buf c
  buf : pool'.buf cl = b
  fresh : pool'.fresh = taken.fresh
  chain : pool'.chain = taken.chain

theorem Taken.placed {taken : Mpool β} {free' : List Nat} (h : Taken pool free cl taken free')
    (hopen : Opened pool chain p ll) (hcl : cl ∉ p) (b : Option β) :
    Placed pool taken p cl b (store (taken.setBuf cl b) chain ll (some cl)).1
      (store (taken.setBuf cl b) chain ll (some cl)).2 := by
  have hfilled : ∀ c, c ≠ cl → (taken.setBuf cl b).links c = pool.links c := fun c hc =>
    (links_modify_of_ne _ hc).trans (h.links c hc)
  have hthere : (taken.setBuf cl b).links cl ≠ none := links_modify_ne_none _ h.there
  -- the links that are there already are the same with the buffer in the new one
  have hopen' : Opened (taken.setBuf cl b) chain p ll := by
    cases hopen with
    | empty => exact .empty
    | @link q w along there once =>
      have hne {c : Nat} (hc : c ∈ q ++ [w]) : c ≠ cl := ne_of_mem_of_not_mem hc hcl
      refine .link (along.congr fun c hc => next_of_links (hfilled c (hne (List.mem_append_left _ hc)))) ?_ once
      rwa [hfilled w (hne (by simp))]
  have hbufs : (store (taken.setBuf cl b) chain ll (some cl)).2.buf = Function.update taken.buf cl b := by
    rw [buf_store, buf_setBuf h.there]
  refine ⟨hopen'.push hcl hthere, fun c hc hne => ?_, fun c hc => ?_, fun c hne => ?_, ?_, fresh_store _, chain_store _⟩
  · rw [links_store hopen' _ hc, hfilled c hne]
  · rw [next_store hopen' _ hc, next_setBuf]
  · rw [hbufs, Function.update_of_ne hne, buf_of_links (h.links c hne)]
  · rw [hbufs, Function.update_self]

/-- A round that gets a link. -/
theorem Growing.round (h : Growing pool chain ll p free (a :: ins) input) (hsome : free ++ pool.fresh ≠ []) :
    ∃ cl pool' chain' free' input', (∀ fuel, appendLinks pool chain ll (fuel + 1) input =
        appendLinks pool' chain' (some cl) fuel input') ∧
      Grows pool p free a cl pool' free' ∧ Growing pool' chain' (some cl) (p ++ [cl]) free' ins input' := by
  obtain ⟨cl, taken, free', htaken⟩ := take_link h.spare hsome
  obtain ⟨rfl, input', hinput, hins⟩ := h.read
  have hsupply := htaken.source.supply
  have hcl : cl ∉ p := fun hp => h.apart cl hp (hsupply ▸ List.mem_cons_self)
  have hnodup := h.supply
  rw [hsupply, List.nodup_cons] at hnodup
  have hrest {b : Nat} (hb : b ∉ free ++ pool.fresh) : b ≠ cl ∧ b ∉ free' ++ taken.fresh := by
    rw [hsupply, List.mem_cons, not_or] at hb
    exact hb
  have hplaced := htaken.placed h.opened hcl (taken.buf a)
  generalize hstored : store (taken.setBuf cl (taken.buf a)) chain ll (some cl) = stored at hplaced
  obtain ⟨hap, hafree⟩ := h.inputApart a List.mem_cons_self
  have hacl := (hrest hafree).1
  have hnexta : stored.2.next a = some input' := by
    rw [hplaced.nexts a hap, next_of_links (htaken.links a hacl), hinput]
  refine ⟨cl, stored.2, stored.1, free', input', fun fuel => ?_, ⟨?_, hplaced.links, hplaced.bufs, ?_⟩,
    ⟨hplaced.opened, ?_, ?_, ?_, ?_, ?_⟩⟩
  · rw [appendLinks_taken htaken.call, hstored]
    simp only [hnexta, Option.bind_some]
  · have hnextcl := hplaced.nexts cl hcl
    cases htaken.source with
    | recycled hfree hf hnext =>
      exact .recycled hfree (hplaced.fresh.trans hf) (by rw [hnextcl, hnext, hplaced.chain])
    | allocated hfree hf hnext => exact .allocated hfree (by rw [hf, hplaced.fresh]) (by rw [hnextcl, hnext])
  · rw [hplaced.buf, buf_of_links (htaken.links a hacl)]
  · rw [hplaced.chain]
    refine htaken.spare.congr fun b hb => hplaced.nexts b fun hp => ?_
    exact (hrest (h.apart b hp)).2 (List.mem_append_left _ hb)
  · refine hins.congr fun b hb => ?_
    obtain ⟨hbp, hbfree⟩ := h.inputApart b (List.mem_cons_of_mem _ hb)
    rw [hplaced.nexts b hbp, next_of_links (htaken.links b (hrest hbfree).1)]
  · rw [hplaced.fresh]
    exact hnodup.2
  · intro b hb
    rw [hplaced.fresh]
    rcases List.mem_append.mp hb with hb | hb
    · exact (hrest (h.apart b hb)).2
    · rw [List.mem_singleton.mp hb]
      exact hnodup.1
  · intro b hb
    obtain ⟨hbp, hbfree⟩ := h.inputApart b (List.mem_cons_of_mem _ hb)
    obtain ⟨hne, hbrest⟩ := hrest hbfree
    rw [hplaced.fresh]
    exact ⟨by simp [hbp, hne], hbrest⟩

/-- What the whole loop does: it takes the links `t`, as many as there are and are wanted. -/
structure Grown (pool : Mpool β) (chain ll : Option Nat) (p free ins : List Nat) (ok : Bool)
    (chain' : Option Nat) (pool' : Mpool β) (t : List Nat) : Prop where
  taken : t = (free ++ pool.fresh).take ins.length
  ok_iff : ok = true ↔ ins.length ≤ (free ++ pool.fresh).length
  opened : Opened pool' chain' (p ++ t) (t.getLast?.or ll)
  links : ∀ b, b ∉ p → b ∉ t → pool'.links b = pool.links b
  bufs : ∀ b, b ∉ t → pool'.buf b = pool.buf b
  buf : t.map pool'.buf = (ins.map pool.buf).take t.length
  rest : ok = true → ∃ free', Chained pool'.next pool'.chain free' ∧ ∀ b ∈ p ++ t, b ∉ free'
  ended : ok = true → held pool' chain' (t.getLast?.or ll) = some none
  failed : ok = false → held pool' chain' (t.getLast?.or ll) =
    if pool.fresh ≠ [] then none else if free ≠ [] then some none else held pool chain ll

theorem getLast?_cons_or (a : Nat) (t : List Nat) (ll : Option Nat) :
    (a :: t).getLast?.or ll = t.getLast?.or (some a) := by
  cases t with
  | nil => rfl
  | cons b t => simp [List.getLast?_cons]

/-- The input is at its end. -/
theorem Growing.done (h : Growing pool chain ll p free [] input) :
    Grown pool chain ll p free [] true (store pool chain ll none).1 (store pool chain ll none).2 [] where
  taken := rfl
  ok_iff := iff_of_true rfl (Nat.zero_le _)
  opened := by simpa using (h.opened.store none).1
  links b hb _ := links_store h.opened _ hb
  bufs b _ := by rw [buf_store]
  buf := rfl
  rest _ := by
    refine ⟨free, ?_, ?_⟩
    · rw [chain_store]
      exact h.spare.congr fun b hb => next_store h.opened _ fun hp => h.apart b hp (List.mem_append_left _ hb)
    · intro b hb hfree
      rw [List.append_nil] at hb
      exact h.apart b hb (List.mem_append_left _ hfree)
  ended _ := (h.opened.store none).2
  failed hok := by cases hok

/-- There is no link. -/
theorem Growing.stuck (h : Growing pool chain ll p free (a :: ins) input) (hnone : free ++ pool.fresh = []) :
    Grown pool chain ll p free (a :: ins) false chain pool [] where
  taken := by rw [hnone, List.take_nil]
  ok_iff := by simp [hnone]
  opened := by simpa using h.opened
  links _ _ _ := rfl
  bufs _ _ := rfl
  buf := rfl
  rest hok := by cases hok
  ended hok := by cases hok
  failed _ := by
    obtain ⟨rfl, hfresh⟩ := List.append_eq_nil_iff.mp hnone
    simp [hfresh]

/-- A round, and the rounds behind it. -/
theorem Grown.cons {ok : Bool} {free' t : List Nat} {chain'' : Option Nat} {pool'' : Mpool β}
    (h : Growing pool chain ll p free (a :: ins) input) (hround : Grows pool p free a cl pool' free')
    (hspare : Chained pool'.next pool'.chain free')
    (hrest : Grown pool' chain' (some cl) (p ++ [cl]) free' ins ok chain'' pool'' t) :
    Grown pool chain ll p free (a :: ins) ok chain'' pool'' (cl :: t) := by
  have hsupply := hround.source.supply
  have hnodup := h.supply
  rw [hsupply, List.nodup_cons] at hnodup
  have hclt : cl ∉ t := fun ht => hnodup.1 (List.mem_of_mem_take (hrest.taken ▸ ht))
  have hins : ∀ b ∈ ins, b ≠ cl := fun b hb he =>
    (h.inputApart b (List.mem_cons_of_mem _ hb)).2 (by simp [hsupply, he])
  refine ⟨?_, ?_, ?_, ?_, ?_, ?_, ?_, ?_, ?_⟩
  · rw [hsupply, List.length_cons, List.take_succ_cons, hrest.taken]
  · rw [hrest.ok_iff, hsupply, List.length_cons, List.length_cons, Nat.add_le_add_iff_right]
  · rw [getLast?_cons_or]
    simpa using hrest.opened
  · intro b hb ht
    rw [List.mem_cons, not_or] at ht
    rw [hrest.links b (by simp [hb, ht.1]) ht.2, hround.links b hb ht.1]
  · intro b ht
    rw [List.mem_cons, not_or] at ht
    rw [hrest.bufs b ht.2, hround.bufs b ht.1]
  · rw [List.map_cons, List.map_cons, List.length_cons, List.take_succ_cons, hrest.buf, hrest.bufs cl hclt, hround.buf]
    congr 2
    exact List.map_congr_left fun b hb => hround.bufs b (hins b hb)
  · intro hok
    obtain ⟨free'', hchained, hfree⟩ := hrest.rest hok
    exact ⟨free'', hchained, by simpa using hfree⟩
  · intro hok
    rw [getLast?_cons_or]
    exact hrest.ended hok
  · intro hok
    rw [getLast?_cons_or, hrest.failed hok]
    cases hround.source with
    | recycled hfree hfresh hnext =>
      have hlast : free' = [] → held pool' chain' (some cl) = some none := by
        rintro rfl
        exact hnext.trans (congrArg some hspare)
      rw [hfresh, hfree, if_pos (List.cons_ne_nil _ _)]
      by_cases hempty : free' = []
      · rw [hlast hempty, if_neg (not_not_intro hempty)]
      · rw [if_pos hempty]
    | allocated hfree hfresh hnext =>
      rw [hfresh, if_pos (List.cons_ne_nil _ _), if_neg (not_not_intro rfl)]
      by_cases hempty : pool'.fresh = []
      · rw [if_neg (not_not_intro hempty)]
        exact hnext
      · rw [if_pos hempty]

theorem Growing.run (h : Growing pool chain ll p free ins input) {fuel : Nat} (hfuel : ins.length < fuel) :
    ∃ ok chain' pool' t, appendLinks pool chain ll fuel input = some (ok, chain', pool') ∧
      Grown pool chain ll p free ins ok chain' pool' t := by
  induction ins generalizing pool chain ll p free input fuel with
  | nil =>
    cases h.read
    obtain ⟨fuel, rfl⟩ := Nat.exists_eq_succ_of_ne_zero (Nat.ne_of_gt hfuel)
    exact ⟨true, _, _, [], rfl, h.done⟩
  | cons a ins ih =>
    obtain ⟨fuel, rfl⟩ := Nat.exists_eq_succ_of_ne_zero (Nat.ne_of_gt (Nat.zero_lt_of_lt hfuel))
    by_cases hnone : free ++ pool.fresh = []
    · obtain ⟨rfl, -⟩ := id h.read
      refine ⟨false, chain, pool, [], ?_, h.stuck hnone⟩
      rw [appendLinks, link_none h.spare hnone]
      rfl
    · obtain ⟨cl, pool', chain', free', input', hcall, hround, hgrowing⟩ := h.round hnone
      obtain ⟨ok, chain'', pool'', t, hrun, hgrown⟩ := ih hgrowing (Nat.lt_of_succ_lt_succ hfuel)
      exact ⟨ok, chain'', pool'', cl :: t, (hcall fuel).trans hrun, .cons h hround hgrowing.spare hgrown⟩

/-! ### The whole call -/

theorem chainEnd_opened {q : List Nat} {fuel : Nat} (hq : Opened pool chain q ll) (hx : held pool chain ll = some x)
    (hp : Chained pool.next x p) (hnodup : (q ++ p).Nodup) (hfuel : p.length < fuel) :
    ∃ ll', chainEnd pool fuel x ll = some ll' ∧ Opened pool chain (q ++ p) ll' ∧ held pool chain ll' = some none := by
  induction p generalizing q ll x fuel with
  | nil =>
    cases hp
    obtain ⟨fuel, rfl⟩ := Nat.exists_eq_succ_of_ne_zero (Nat.ne_of_gt hfuel)
    exact ⟨ll, rfl, by simpa using hq, hx⟩
  | cons a p ih =>
    obtain ⟨rfl, r, hr, hp⟩ := hp
    obtain ⟨fuel, rfl⟩ := Nat.exists_eq_succ_of_ne_zero (Nat.ne_of_gt (Nat.zero_lt_of_lt hfuel))
    have ha : a ∉ q := fun hmem => List.disjoint_of_nodup_append hnodup hmem List.mem_cons_self
    have hopen : Opened pool chain (q ++ [a]) (some a) :=
      .link (hq.along hx) (links_of_next (by simp [hr])) ha
    obtain ⟨ll', hend, hopen', hheld⟩ := ih hopen hr hp (by simpa using hnodup) (Nat.lt_of_succ_lt_succ hfuel)
    refine ⟨ll', ?_, by simpa using hopen', hheld⟩
    rw [chainEnd, hr]
    exact hend

theorem there_of_chained (h : Chained pool.next x p) : ∀ a ∈ p, pool.links a ≠ none :=
  fun a ha => links_of_next (h.written a ha)

theorem fresh_of_there {b : Nat} (h : pool.links b ≠ none) : b ∉ pool.fresh := fun hb => h (pool.unused b hb)

/-- No link of the output chain is free. -/
theorem Grown.appendOk {ok : Bool} {t : List Nat} (h : Growing pool chain ll p free ins input)
    (hheld : held pool chain ll = some none) (hg : Grown pool chain ll p free ins ok chain' pool' t) :
    AppendOk pool p ins (ok, chain', pool') ↔ ins.length ≤ free.length + pool.fresh.length ∨ pool.fresh = [] := by
  have hlen : ok = true ↔ ins.length ≤ free.length + pool.fresh.length := by
    rw [hg.ok_iff, List.length_append]
  have ht : ∀ b ∈ t, b ∈ free ++ pool.fresh := fun b hb => List.mem_of_mem_take (hg.taken ▸ hb)
  have hold : p.map pool'.buf = p.map pool.buf :=
    List.map_congr_left fun b hb => hg.bufs b fun hbt => h.apart b hb (ht b hbt)
  cases ok with
  | true =>
    refine iff_of_true ⟨⟨p ++ t, hg.opened.along (hg.ended rfl), ?_, ?_⟩, ?_⟩ (Or.inl (hlen.mp rfl))
    · have hall : t.length = ins.length := by
        rw [hg.taken, List.length_take, Nat.min_eq_left (hg.ok_iff.mp rfl)]
      rw [List.map_append, hold, hg.buf, hall, List.take_of_length_le (by simp)]
    · obtain ⟨free', hfree', hapart⟩ := hg.rest rfl
      exact fun b hb hon => hapart b hb (hfree'.mem hon)
    · intro b hb
      obtain ⟨hbp, hbfree⟩ := h.inputApart b hb
      exact hg.links b hbp fun hbt => hbfree (ht b hbt)
  | false =>
    have hmore : ¬ins.length ≤ free.length + pool.fresh.length := fun hle => Bool.false_ne_true (hlen.mpr hle)
    have hfailed := hg.failed rfl
    by_cases hfresh : pool.fresh = []
    · have hend : held pool' chain' (t.getLast?.or ll) = some none := by
        rw [hfailed, if_neg (not_not_intro hfresh), hheld, ite_self]
      refine iff_of_true ⟨⟨t, hg.opened.along hend, ?_⟩, hold⟩ (Or.inr hfresh)
      rw [hg.buf]
      exact List.take_prefix _ _
    · refine iff_of_false ?_ (not_or.mpr ⟨hmore, hfresh⟩)
      rintro ⟨⟨part, hpart, -⟩, -⟩
      -- the last link that was taken has not been given a next one
      rw [if_pos hfresh] at hfailed
      exact hg.opened.unwritten hfailed _ hpart

/-! ### An output chain that shares links with the free list -/

/-- A round that puts the first free link behind the last one, wherever that is. -/
theorem round_shared (chain : Option Nat) {z f : Nat} {r x : Option Nat} (hz : pool.links z ≠ none)
    (hchain : pool.chain = some f) (hf : pool.next f = some r) (ha : pool.next a = some x) (haz : a ≠ z) :
    ∃ pool', (∀ fuel, appendLinks pool chain (some z) (fuel + 1) (some a) =
        appendLinks pool' chain (some f) fuel x) ∧
      pool'.next = Function.update pool.next z (some (some f)) ∧ pool'.chain = r ∧ pool'.fresh = pool.fresh ∧
      ∀ b, pool.links b ≠ none → pool'.links b ≠ none := by
  have hcall : pool.chainLinkAlloc = some (some f, { pool with chain := r }) := by
    rw [Mpool.chainLinkAlloc, hchain]
    simp only [hf, Option.map_some]
  have hkept : ∀ b, pool.links b ≠ none →
      (({ pool with chain := r } : Mpool β).setBuf f (pool.buf a)).links b ≠ none := fun b hb => by
    apply links_modify_ne_none
    exact hb
  have hnext : ((({ pool with chain := r } : Mpool β).setBuf f (pool.buf a)).setNext z (some f)).next =
      Function.update pool.next z (some (some f)) := by
    rw [next_setNext (hkept z hz), next_setBuf]
    rfl
  refine ⟨_, fun fuel => ?_, hnext, rfl, rfl, fun b hb => links_modify_ne_none _ (hkept b hb)⟩
  rw [appendLinks_taken hcall]
  simp only [store]
  rw [show ({ pool with chain := r } : Mpool β).buf a = pool.buf a from rfl, hnext, Function.update_of_ne haz, ha]
  rfl

/-- Where the free list is a circle, it goes round in it, and leaves it with the last link that was taken as
its end. -/
theorem appendLinks_circle (chain : Option Nat) {c : List Nat} {w : Nat} {fuel : Nat}
    (hcircle : Along pool.next pool.chain (c ++ [w]) pool.chain) (hnodup : (c ++ [w]).Nodup)
    (hins : Chained pool.next input ins) (hapart : ∀ a ∈ ins, a ∉ c ++ [w]) (hfuel : ins.length < fuel) :
    ∃ pool', appendLinks pool chain (some w) fuel input = some (true, chain, pool') ∧
      (∀ b ∈ c ++ [w], OnChain pool'.next pool'.chain b) ∧ ∀ b, b ∉ c ++ [w] → pool'.next b = pool.next b := by
  induction ins generalizing pool input c w fuel with
  | nil =>
    obtain ⟨hway, hw⟩ := along_concat.mp hcircle
    have hthere : pool.links w ≠ none := links_of_next (by simp [hw])
    have hwc : w ∉ c := fun hmem => List.disjoint_of_nodup_append hnodup hmem List.mem_cons_self
    cases hins
    obtain ⟨fuel, rfl⟩ := Nat.exists_eq_succ_of_ne_zero (Nat.ne_of_gt hfuel)
    refine ⟨pool.setNext w none, rfl, ?_, fun b hb => next_of_links (links_modify_of_ne _ ?_)⟩
    · have hend : Along (pool.setNext w none).next pool.chain (c ++ [w]) none := by
        rw [next_setNext hthere]
        exact along_concat.mpr ⟨hway.update hwc _, Function.update_self _ _ _⟩
      exact fun b hb => hend.onChain hb
    · rintro rfl
      exact hb (by simp)
  | cons a ins ih =>
    obtain ⟨rfl, x, ha, hins⟩ := hins
    obtain ⟨fuel, rfl⟩ := Nat.exists_eq_succ_of_ne_zero (Nat.ne_of_gt (Nat.zero_lt_of_lt hfuel))
    obtain ⟨-, hw⟩ := along_concat.mp hcircle
    have hthere : pool.links w ≠ none := links_of_next (by simp [hw])
    obtain ⟨f, fs, hfs⟩ : ∃ f fs, c ++ [w] = f :: fs := List.exists_cons_of_ne_nil (by simp)
    obtain ⟨hchain, r, hr, hbelow⟩ := along_cons.mp (hfs ▸ hcircle)
    have haw : a ≠ w := fun he => hapart a List.mem_cons_self (by simp [he])
    obtain ⟨pool', hcall, hnext, hchain', -, -⟩ := round_shared chain hthere hchain hr ha haw
    -- the last link leads to the first one already
    have hsame : pool'.next = pool.next := by
      rw [hnext, ← hchain, ← hw, Function.update_eq_self]
    have hperm : (fs ++ [f]).Perm (c ++ [w]) := hfs ▸ List.perm_append_comm
    have hcircle' : Along pool'.next pool'.chain (fs ++ [f]) pool'.chain := by
      rw [hsame, hchain']
      exact along_concat.mpr ⟨hchain ▸ hbelow, hr⟩
    obtain ⟨pool'', hrun, hon, hkept⟩ := ih hcircle' (hperm.nodup_iff.mpr hnodup) (hsame ▸ hins)
      (fun b hb hc => hapart b (List.mem_cons_of_mem _ hb) (hperm.mem_iff.mp hc)) (Nat.lt_of_succ_lt_succ hfuel)
    refine ⟨pool'', (hcall fuel).trans hrun, fun b hb => hon b (hperm.mem_iff.mpr hb), fun b hb => ?_⟩
    rw [hkept b (fun hc => hb (hperm.mem_iff.mp hc)), hsame]

theorem AppendedAll.apart (h : AppendedAll pool p ins chain' pool') {y : Nat} (hy : OnChain pool'.next chain' y) :
    ¬OnChain pool'.next pool'.chain y := by
  obtain ⟨whole, hwhole, -, hfree⟩ := h.whole
  exact hfree y (hwhole.mem hy)

/-- The last link of the output chain is the only free one: it is put behind itself, and the next link over it. -/
theorem shared_single {w fuel : Nat} (hopen : Opened pool chain p (some w)) (hchain : pool.chain = some w)
    (hw : pool.next w = some none) (hinput : Chained pool.next input (a :: ins)) (hapart : ∀ b ∈ a :: ins, b ∉ p)
    (hfuel : ins.length < fuel) :
    ∃ r, appendLinks pool chain (some w) (fuel + 1) input = some r ∧ ¬AppendOk pool p (a :: ins) r := by
  obtain ⟨rfl, x, hx, hins⟩ := hinput
  have hthere : pool.links w ≠ none := links_of_next (by simp [hw])
  have hwp : w ∈ p := by
    cases hopen with
    | link => simp
  have hne : ∀ b ∈ a :: ins, b ≠ w := fun b hb he => hapart b hb (he ▸ hwp)
  obtain ⟨taken, hcall, hnext, hchain', -, hlinks⟩ :=
    round_shared chain hthere hchain hw hx (hne a List.mem_cons_self)
  have hopen' : Opened taken chain p (some w) := by
    cases hopen with
    | link along there once => exact .link (hnext ▸ along.update once _) (hlinks w there) once
  have hins' : Chained taken.next x ins :=
    hins.congr fun b hb => by rw [hnext, Function.update_of_ne (hne b (List.mem_cons_of_mem _ hb))]
  have hgrowing : Growing taken chain (some w) p [] ins x :=
    { opened := hopen'
      spare := hchain'
      read := hins'
      supply := taken.distinct
      apart := fun b hb => fresh_of_there (hopen'.there b hb)
      inputApart := fun b hb =>
        ⟨hapart b (List.mem_cons_of_mem _ hb), fresh_of_there (there_of_chained hins' b hb)⟩ }
  obtain ⟨ok, chain', pool', t, hrun, hg⟩ := hgrowing.run hfuel
  refine ⟨_, (hcall fuel).trans hrun, fun hok => ?_⟩
  cases ok with
  | true =>
    obtain ⟨⟨whole, hwhole, hbufs, -⟩, -⟩ := hok
    obtain rfl := hwhole.unique (hg.opened.along (hg.ended rfl))
    have hlen := congrArg List.length hbufs
    have htaken := congrArg List.length hg.taken
    simp only [List.length_map, List.length_append, List.length_cons, List.length_take] at hlen htaken
    omega
  | false =>
    obtain ⟨⟨part, hpart, -⟩, -⟩ := hok
    have hfailed := hg.failed rfl
    by_cases hfresh : taken.fresh = []
    · rw [if_neg (not_not_intro hfresh), if_neg (not_not_intro rfl)] at hfailed
      have hself : held taken chain (some w) = some (some w) := by
        show taken.next w = _
        rw [hnext, Function.update_self]
      exact (hg.opened.along (hfailed.trans hself)).circle (List.mem_append_left _ hwp) hpart
    · rw [if_pos hfresh] at hfailed
      exact hg.opened.unwritten hfailed _ hpart

/-- The free list goes on behind the output chain's last link, which makes a circle of it. -/
theorem shared_circle {w f y fuel : Nat} {g q : List Nat} (hfree : Chained pool.next pool.chain (f :: g ++ [w]))
    (hinput : Chained pool.next input (a :: ins)) (hapart : ∀ b ∈ a :: ins, b ∉ f :: g ++ [w])
    (hway : Along pool.next chain q (some y)) (hq : ∀ b ∈ q, b ∉ f :: g ++ [w]) (hy : y ∈ f :: g ++ [w])
    (hfuel : ins.length < fuel) :
    ∃ r, appendLinks pool chain (some w) (fuel + 1) input = some r ∧ ¬AppendOk pool p (a :: ins) r := by
  obtain ⟨rfl, x, hx, hins⟩ := hinput
  have hnodup := hfree.nodup
  obtain ⟨hway', hw⟩ := along_concat.mp hfree
  obtain ⟨hchain, r, hr, hg⟩ := hway'
  have hthere : pool.links w ≠ none := links_of_next (by simp [hw])
  have hwlast : w ∉ f :: g := fun hmem => List.disjoint_of_nodup_append hnodup hmem List.mem_cons_self
  have hne : ∀ b, b ∉ f :: g ++ [w] → b ≠ w := fun b hb he => hb (by simp [he])
  obtain ⟨taken, hcall, hnext, hchain', -, -⟩ :=
    round_shared chain hthere hchain hr hx (hne a (hapart a List.mem_cons_self))
  have hperm : (g ++ [w] ++ [f]).Perm (f :: g ++ [w]) := List.perm_append_comm
  have hcircle : Along taken.next taken.chain (g ++ [w] ++ [f]) taken.chain := by
    rw [hchain', hnext]
    refine along_concat.mpr ⟨along_concat.mpr ⟨hg.update (fun hb => hwlast (List.mem_cons_of_mem _ hb)) _,
      Function.update_self _ _ _⟩, ?_⟩
    rw [Function.update_of_ne (fun he => hwlast (by simp [he])), hr]
  obtain ⟨pool', hrun, hon, hkept⟩ := appendLinks_circle chain hcircle
    (hperm.nodup_iff.mpr hnodup)
    (hins.congr fun b hb => by
      rw [hnext, Function.update_of_ne (hne b (hapart b (List.mem_cons_of_mem _ hb)))])
    (fun b hb hc => hapart b (List.mem_cons_of_mem _ hb) (hperm.mem_iff.mp hc)) hfuel
  refine ⟨_, (hcall fuel).trans hrun, fun hok => hok.apart ⟨q, hway.congr fun b hb => ?_⟩ (hon y (hperm.mem_iff.mpr hy))⟩
  rw [hkept b (fun hc => hq b hb (hperm.mem_iff.mp hc)), hnext, Function.update_of_ne (hne b (hq b hb))]

theorem Opened.getLast? (h : Opened pool chain p ll) : p.getLast? = ll := by
  cases h with
  | empty => rfl
  | link => exact List.getLast?_concat

/-- Sharing a link with the free list, the output chain is never as it should be. -/
theorem shared_fails {fuel : Nat} (hopen : Opened pool chain p ll) (hheld : held pool chain ll = some none)
    (hfree : Chained pool.next pool.chain free) (hinput : Chained pool.next input ins)
    (hapart : ∀ a ∈ ins, a ∉ p ∧ a ∉ free) (hshared : ∃ a ∈ p, a ∈ free) (hfuel : ins.length < fuel) :
    ∃ r, appendLinks pool chain ll fuel input = some r ∧ ¬AppendOk pool p ins r := by
  have hchained : Chained pool.next chain p := hopen.along hheld
  -- from the first link that is shared on, they are the same
  obtain ⟨y, q, rest, g', hp, hg', hq⟩ :
      ∃ y q rest g', p = q ++ y :: rest ∧ free = g' ++ y :: rest ∧ ∀ b ∈ q, b ∉ free := by
    obtain ⟨b, hb, hbfree⟩ := hshared
    have hfound : (p.find? fun b => decide (b ∈ free)).isSome := List.find?_isSome.mpr ⟨b, hb, decide_eq_true hbfree⟩
    obtain ⟨y, hy⟩ := Option.isSome_iff_exists.mp hfound
    obtain ⟨hyfree, q, rest, hp, hq⟩ := List.find?_eq_some_iff_append.mp hy
    obtain ⟨g', rest', hg'⟩ := List.append_of_mem (of_decide_eq_true hyfree)
    have hsame := (hp ▸ hchained).onward.unique (hg' ▸ hfree).onward
    refine ⟨y, q, rest, g', hp, hsame ▸ hg', fun b hb hbfree => ?_⟩
    simpa [hbfree] using hq b hb
  have hway : Along pool.next chain q (some y) := by
    obtain ⟨r, hr, hy⟩ := along_append.mp (hp ▸ hchained)
    exact hy.1 ▸ hr
  have hy : y ∈ free := by simp [hg']
  have hlast : free.getLast? = ll := by
    rw [← hopen.getLast?, hp, hg', List.getLast?_append_cons, List.getLast?_append_cons]
  obtain ⟨w, rfl⟩ : ∃ w, ll = some w := by
    rw [← hlast, hg', List.getLast?_append_cons]
    exact ⟨_, List.getLast?_cons⟩
  obtain ⟨g, rfl⟩ := List.getLast?_eq_some_iff.mp hlast
  obtain ⟨fuel, rfl⟩ := Nat.exists_eq_succ_of_ne_zero (Nat.ne_of_gt (Nat.zero_lt_of_lt hfuel))
  cases ins with
  | nil =>
    cases hinput
    refine ⟨_, rfl, fun hok => ?_⟩
    have hsame : (pool.setNext w none).next = pool.next := by
      rw [next_setNext (links_of_next (by rw [show pool.next w = _ from hheld]; simp)), ← hheld]
      exact Function.update_eq_self _ _
    exact AppendedAll.apart hok ⟨q, hsame ▸ hway⟩ (hsame ▸ hfree.onChain hy)
  | cons a ins =>
    cases g with
    | nil =>
      obtain ⟨hchain, -⟩ := hfree
      exact shared_single hopen hchain hheld hinput (fun b hb => (hapart b hb).1) (Nat.lt_of_succ_lt_succ hfuel)
    | cons f g =>
      exact shared_circle hfree hinput (fun b hb => (hapart b hb).2) hway hq hy (Nat.lt_of_succ_lt_succ hfuel)

/-! ### When the chain is as it should be -/

/-- **Appending a chain** is exact on success and leaves a chain on failure if and only if no link of the
output chain is free and there are links for the whole input, or the allocator grants none: the last link it has
granted before it fails is left without a next one. -/
theorem chainAppend_iff {old : List Nat} {fuel : Nat} (hold : Chained pool.next chain old)
    (hfree : Chained pool.next pool.chain free) (hinput : Chained pool.next input ins)
    (hapart : ∀ a ∈ ins, a ∉ old ∧ a ∉ free) (hfuel : old.length < fuel ∧ ins.length < fuel) :
    ∃ r, chainAppend fuel pool chain input = some r ∧ (AppendOk pool old ins r ↔
      (∀ a ∈ old, a ∉ free) ∧ (ins.length ≤ free.length + pool.fresh.length ∨ pool.fresh = [])) := by
  obtain ⟨ll, hend, hopen, hheld⟩ := chainEnd_opened .empty rfl hold hold.nodup hfuel.1
  rw [List.nil_append] at hopen
  simp only [chainAppend, hend, Option.bind_some]
  by_cases hshared : ∃ a ∈ old, a ∈ free
  · obtain ⟨r, hrun, hfails⟩ := shared_fails hopen hheld hfree hinput hapart hshared hfuel.2
    refine ⟨r, hrun, iff_of_false hfails fun h => ?_⟩
    obtain ⟨a, ha, hafree⟩ := hshared
    exact h.1 a ha hafree
  · have hdisjoint : ∀ a ∈ old, a ∉ free := fun a ha hafree => hshared ⟨a, ha, hafree⟩
    have hgrowing : Growing pool chain ll old free ins input :=
      { opened := hopen
        spare := hfree
        read := hinput
        supply := List.nodup_append'.mpr ⟨hfree.nodup, pool.distinct, fun b hb =>
          fresh_of_there (there_of_chained hfree b hb)⟩
        apart := fun b hb hmem => (List.mem_append.mp hmem).elim (hdisjoint b hb)
          (fresh_of_there (hopen.there b hb))
        inputApart := fun b hb => ⟨(hapart b hb).1, fun hmem => (List.mem_append.mp hmem).elim (hapart b hb).2
          (fresh_of_there (there_of_chained hinput b hb))⟩ }
    obtain ⟨ok, chain', pool', t, hrun, hg⟩ := hgrowing.run hfuel.2
    exact ⟨_, hrun, (hg.appendOk hgrowing hheld).trans (and_iff_right hdisjoint).symm⟩

/-- An output chain of one link, an input chain of two, no free link, and a block that the allocator grants. -/
def shortPool : Mpool Char where
  links a := [⟨some 'a', some none⟩, ⟨some 'b', some (some 2)⟩, ⟨some 'c', some none⟩][a]?
  chain := none
  fresh := [3]
  unused := by simp
  distinct := by simp

/-- The last link of the input alone can be appended. -/
theorem chainAppend_iff_one :
    ∃ r, chainAppend 2 shortPool (some 0) (some 2) = some r ∧ (AppendOk shortPool [0] [2] r ↔
      (∀ a ∈ [0], a ∉ ([] : List Nat)) ∧ ([2].length ≤ ([] : List Nat).length + shortPool.fresh.length ∨
        shortPool.fresh = [])) :=
  chainAppend_iff ⟨rfl, none, rfl, rfl⟩ rfl ⟨rfl, none, rfl, rfl⟩ (by decide) (by decide)

/-- For the second link of the input there is no block: the output chain ends in a link without a next one. -/
theorem chainAppend_unterminated : Chained shortPool.next (some 0) [0] ∧ Chained shortPool.next (some 1) [1, 2] ∧
    Chained shortPool.next shortPool.chain [] ∧
    ¬∃ r, chainAppend 3 shortPool (some 0) (some 1) = some r ∧ AppendOk shortPool [0] [1, 2] r := by
  refine ⟨⟨rfl, none, rfl, rfl⟩, ⟨rfl, some 2, rfl, rfl, none, rfl, rfl⟩, rfl, ?_⟩
  rintro ⟨⟨ok, chain, pool⟩, hr, hok⟩
  have hcall : (chainAppend 3 shortPool (some 0) (some 1)).map
      (fun r => (r.1, r.2.1, r.2.2.next 0, r.2.2.next 3)) = some (false, some 0, some (some 3), none) := by decide
  rw [hr, Option.map_some, Option.some.injEq, Prod.mk.injEq, Prod.mk.injEq, Prod.mk.injEq] at hcall
  obtain ⟨rfl, rfl, h0, h3⟩ := hcall
  obtain ⟨⟨part, ⟨-, x, hx, hpart⟩, -⟩, -⟩ := hok
  obtain rfl : x = some 3 := Option.some.inj (hx.symm.trans h0)
  cases part with
  | nil => cases hpart
  | cons b part =>
    obtain ⟨hb, y, hy, -⟩ := hpart
    cases hb
    exact absurd (hy.symm.trans h3) (by simp)

end PgRest.Memory
