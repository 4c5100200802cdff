import Krapi.InitialDownload
import Krapi.Follower

/-! # Catching up with a published chain

A node holds an initial segment of `P` and downloads from peers that hold
initial segments too, while blocks of `P` keep arriving live. Headers come in
the key order of the peer's store, so the puts leave gaps; a live block is let
in only on top of the greatest held position, whatever lies below. What the
node holds together with what it is about to put is an initial segment at every
point of the loop, so the gaps are closed when the loop ends. -/
namespace Krapi.CatchUp
open Krapi.BlockchainModels Krapi.DBInterface Krapi.ChainStore Krapi.Validator Krapi.Pool
open Krapi.Handlers Krapi.PublishedChain Krapi.Follower Krapi.InitialDownload
open Krapi.Lib.Run Krapi.Lib.Timeline

/-! ## The node and its peers -/

structure Sync where
  download : Download
  /-- What each full node stores. -/
  peers : String → Blockchain

inductive SyncAction where
  | download (i : Input)
  | live (e : Event)
  /-- A peer stores a block. -/
  | grow (id : String) (block : Block)
  deriving Repr, DecidableEq

def syncStep (s : Sync) : SyncAction → Sync
  | .download i => { s with download := downloadStep s.download i }
  | .live e => { s with download := { s.download with node := handle s.download.node e } }
  | .grow id block => { s with peers := Function.update s.peers id ((s.peers id).put block).2 }

/-- Peers answer from what they store and store the next block of `P`; live
events are blocks of `P` and any transactions. -/
def Honest (P : List Block) (s : Sync) : SyncAction → Prop
  | .download i => Answered s.peers s.download i
  | .live e => Delivered P e
  | .grow id block => ∃ b ∈ P, block.verified = b.verified ∧
      (s.peers id).last.timestamp < b.timestamp ∧ b.previousHash = (s.peers id).last.hash

instance (P : List Block) (s : Sync) (a : SyncAction) : Decidable (Honest P s a) :=
  match a with
  | .download i => inferInstanceAs (Decidable (Answered s.peers s.download i))
  | .live e => inferInstanceAs (Decidable (Delivered P e))
  | .grow id block => inferInstanceAs (Decidable (∃ b ∈ P, block.verified = b.verified ∧
      (s.peers id).last.timestamp < b.timestamp ∧ b.previousHash = (s.peers id).last.hash))

/-! ## Positions of headers and blocks -/

/-- The header stands at position `i` of `P`. -/
def HeaderAt (P : List Block) (i : ℕ) (h : BlockHeader) : Prop := ∃ b, P[i]? = some b ∧ b.header = h

/-- Up to status, the block stands at position `i` of `P`. -/
def BlockAt (P : List Block) (i : ℕ) (c : Block) : Prop :=
  ∃ b, P[i]? = some b ∧ c.verified = b.verified

/-- Every header of the answers stands at a position up to `m`. -/
def NamedUpTo (P : List Block) (m : ℕ) (answers : List (List BlockHeader)) : Prop :=
  ∀ hs ∈ answers, ∀ h ∈ hs, ∃ i ≤ m, HeaderAt P i h

variable {D : Digest} {P : List Block} {chain : Blockchain} {i j k m q : ℕ} {h : BlockHeader}
  {b c : Block}

theorem HeaderAt.unique (hP : Published D P) (hi : HeaderAt P i h) (hj : HeaderAt P j h) : i = j := by
  obtain ⟨b, hb, rfl⟩ := hi
  obtain ⟨c, hc, he⟩ := hj
  exact hP.listed.key_inj hb hc (congrArg BlockHeader.hash he).symm

theorem exists_headerAt (hi : i < P.length) : ∃ h, HeaderAt P i h :=
  ⟨_, _, List.getElem?_eq_getElem hi, rfl⟩

theorem NamedUpTo.mono {answers : List (List BlockHeader)} (h : NamedUpTo P k answers) (hkm : k ≤ m) :
    NamedUpTo P m answers := by
  intro hs hin x hx
  obtain ⟨i, hi, hat⟩ := h hs hin x hx
  exact ⟨i, hi.trans hkm, hat⟩

/-- The answer of a peer that holds `P` up to `q`: the positions above the asked one. -/
theorem mem_getAllAfter_iff (hP : Published D P) (hold : HoldsUpTo P chain q) {a : Block}
    (ha : P[k]? = some a) :
    h ∈ getAllAfter chain a.header ↔ ∃ i, k < i ∧ i ≤ q ∧ HeaderAt P i h := by
  rw [mem_getAllAfter]
  constructor
  · intro ⟨c, hc, he, _, hlt⟩
    obtain ⟨i, hi, b, hb, hbc⟩ := hold.2.mem_of_stored hc
    have hheader : b.header = c.header := by
      rw [← Block.verified_header b, ← hbc, Block.verified_header]
    have hts : b.timestamp = c.timestamp := congrArg BlockHeader.timestamp hheader
    have hki : k < i := by
      apply (hP.listed.time_lt_iff ha hb).mp
      change a.timestamp < b.timestamp
      rw [hts]; exact hlt
    exact ⟨i, hki, Set.mem_Iic.mp hi, b, hb, hheader.trans he⟩
  · intro ⟨i, hki, hiq, b, hb, he⟩
    obtain ⟨c, hc, hcb⟩ := hold.2.exists_stored (Set.mem_Iic.mpr hiq) hb
    have hheader : c.header = b.header := by
      rw [← Block.verified_header c, hcb, Block.verified_header]
    refine ⟨c, hc, hheader.trans he, ?_, ?_⟩
    · -- a block above a position has shown work, so its hash is not empty
      obtain ⟨i', rfl⟩ : ∃ i', i = i' + 1 := ⟨i - 1, by omega⟩
      have hw := hP.work_at hb
      have hhash : c.hash = b.hash := congrArg BlockHeader.hash hheader
      rw [hhash]
      by_contra hempty
      have hnil : b.hash = "" := by simpa using hempty
      rw [hnil] at hw
      exact absurd hw (by decide)
    · have hlt : a.timestamp < b.timestamp := hP.listed.time_lt ha hb hki
      have hts : c.timestamp = b.timestamp := congrArg BlockHeader.timestamp hheader
      rw [hts]; exact hlt

/-- A peer that holds a position answers a request for its block. -/
theorem onBlockRequest_of_holds (hold : HoldsUpTo P chain q) (hi : HeaderAt P i h)
    (hiq : i ≤ q) : ∃ c, onBlockRequest chain h = .blockResponse c ∧ BlockAt P i c := by
  obtain ⟨b, hb, rfl⟩ := hi
  obtain ⟨c, hc, hcb⟩ := hold.2.exists_stored (Set.mem_Iic.mpr hiq) hb
  have hget := DBInternface.mem_data.mp hc
  have htag : tag c = b.header.hash := by
    change c.verified.header.hash = b.verified.header.hash
    rw [hcb]
  rw [htag] at hget
  exact ⟨c, by simp [onBlockRequest, hget], b, hb, hcb⟩

/-! ## The longest answer -/

theorem mem_emplace {headers : List BlockHeader} {sender : String} {map : HeaderPeerMap}
    {e : List BlockHeader × String} (h : e ∈ emplace headers sender map) :
    e = (headers, sender) ∨ e ∈ map := by
  induction map with
  | nil => left; simpa [emplace] using h
  | cons entry rest ih =>
    unfold emplace at h
    split at h
    · exact List.mem_cons.mp h
    · split at h
      · rcases List.mem_cons.mp h with h | h
        · right; simp [h]
        · rcases ih h with h | h
          · exact .inl h
          · exact .inr (List.mem_cons_of_mem _ h)
      · exact .inr h

theorem mem_emplace_of_mem {headers : List BlockHeader} {sender : String} {map : HeaderPeerMap}
    {e : List BlockHeader × String} (h : e ∈ map) : e ∈ emplace headers sender map := by
  induction map with
  | nil => cases h
  | cons entry rest ih =>
    unfold emplace
    split
    · exact List.mem_cons_of_mem _ h
    · split
      · rcases List.mem_cons.mp h with h | h
        · simp [h]
        · exact List.mem_cons_of_mem _ (ih h)
      · exact h

/-- An answer of this size is in the map afterwards. -/
theorem size_mem_emplace (headers : List BlockHeader) (sender : String) (map : HeaderPeerMap) :
    ∃ e ∈ emplace headers sender map, e.1.length = headers.length := by
  induction map with
  | nil => exact ⟨(headers, sender), by simp [emplace], rfl⟩
  | cons entry rest ih =>
    unfold emplace
    split
    · exact ⟨(headers, sender), by simp, rfl⟩
    · split
      · obtain ⟨e, he, hlen⟩ := ih
        exact ⟨e, List.mem_cons_of_mem _ he, hlen⟩
      · exact ⟨entry, by simp, by omega⟩

/-- The map keeps the order of its comparator. -/
theorem emplace_ordered {headers : List BlockHeader} {sender : String} {map : HeaderPeerMap}
    (h : map.Pairwise fun e e' => e'.1.length < e.1.length) :
    (emplace headers sender map).Pairwise fun e e' => e'.1.length < e.1.length := by
  induction map with
  | nil => simp [emplace]
  | cons entry rest ih =>
    obtain ⟨hfirst, hrest⟩ := List.pairwise_cons.mp h
    unfold emplace
    split
    · rename_i hgt
      refine List.pairwise_cons.mpr ⟨?_, h⟩
      intro e he
      rcases List.mem_cons.mp he with rfl | he
      · exact hgt
      · have := hfirst e he
        change e.1.length < headers.length
        omega
    · split
      · rename_i hgt
        refine List.pairwise_cons.mpr ⟨?_, ih hrest⟩
        intro e he
        rcases mem_emplace he with rfl | he
        · exact hgt
        · exact hfirst e he
      · exact h

/-- The answer lists the positions above `k` up to `q`. -/
def Lists (P : List Block) (k q : ℕ) (hs : List BlockHeader) : Prop :=
  ∀ h, h ∈ hs ↔ ∃ i, k < i ∧ i ≤ q ∧ HeaderAt P i h

/-- Answers to one question are nested, so a longest one has all the headers. -/
theorem Lists.subset {hs hs' : List BlockHeader} {q' : ℕ} (h : Lists P k q hs) (h' : Lists P k q' hs')
    (hnodup : hs'.Nodup) (hlen : hs.length ≤ hs'.length) : hs ⊆ hs' := by
  have hnested : ∀ {l l' : List BlockHeader} {r r' : ℕ}, Lists P k r l → Lists P k r' l' → r ≤ r' →
      l ⊆ l' := by
    intro l l' r r' hl hl' hr x hx
    obtain ⟨i, hki, hir, hat⟩ := (hl x).mp hx
    exact (hl' x).mpr ⟨i, hki, hir.trans hr, hat⟩
  rcases Nat.le_total q q' with hqq | hqq
  · exact hnested h h' hqq
  · have hsub : hs' ⊆ hs := hnested h' h hqq
    have hperm := (hnodup.subperm hsub).perm_of_length_le hlen
    exact hperm.symm.subset

/-! ## The invariant -/

/-- The peer holds `P` at least up to `m`. -/
def Reaches (P : List Block) (peers : String → Blockchain) (id : String) (m : ℕ) : Prop :=
  ∃ q, m ≤ q ∧ HoldsUpTo P (peers id) q

/-- The answers so far to the question for what is above position `k`. -/
structure Asking (P : List Block) (peers : String → Blockchain) (k : ℕ) (map : HeaderPeerMap)
    (answers : List (List BlockHeader)) : Prop where
  lists : ∀ hs ∈ answers, ∃ q, Lists P k q hs
  entries : ∀ e ∈ map, e.1.Nodup ∧ ∃ q, Lists P k q e.1 ∧ Reaches P peers e.2 q
  ordered : map.Pairwise fun e e' => e'.1.length < e.1.length
  sizes : ∀ hs ∈ answers, ∃ e ∈ map, e.1.length = hs.length

/-- What the node holds and has been told, at each stage of the download. -/
inductive Catching (P : List Block) (peers : String → Blockchain) (chain : Blockchain)
    (answers : List (List BlockHeader)) : Stage → Prop where
  | initial (k : ℕ) : HoldsUpTo P chain k → answers = [] → Catching P peers chain answers .initial
  | waiting (k₀ k : ℕ) (a : Block) : HoldsUpTo P chain k → answers = [] → k₀ ≤ k →
      P[k₀]? = some a → Catching P peers chain answers (.waiting a.header)
  | requesting (k₀ k : ℕ) (a : Block) (ids : List String) (map : HeaderPeerMap) :
      HoldsUpTo P chain k → k₀ ≤ k → P[k₀]? = some a → Asking P peers k₀ map answers →
      Catching P peers chain answers (.requesting a.header ids map)
  | downloading (k₀ k m : ℕ) (peer : String) (hs : List BlockHeader) (bs : List Block) :
      HoldsUpTo P chain k → k₀ ≤ k → Reaches P peers peer m →
      (∀ h ∈ hs, ∃ i ≤ m, HeaderAt P i h) → (∀ c ∈ bs, ∃ i ≤ m, BlockAt P i c) →
      (∀ i, k₀ < i → i ≤ m → (∃ h ∈ hs, HeaderAt P i h) ∨ ∃ c ∈ bs, BlockAt P i c) →
      NamedUpTo P m answers → Catching P peers chain answers (.downloading peer hs bs)
  /-- Held and still to be put together are the positions up to `top`. -/
  | inserting (I : Set ℕ) (top : ℕ) (bs : List Block) :
      HoldsAt P chain I → 0 ∈ I → top < P.length → (∀ i ∈ I, i ≤ top) →
      (∀ c ∈ bs, ∃ i ≤ top, BlockAt P i c) → (∀ i ≤ top, i ∈ I ∨ ∃ c ∈ bs, BlockAt P i c) →
      NamedUpTo P top answers → Catching P peers chain answers (.inserting bs)
  | finished (top : ℕ) : HoldsUpTo P chain top → NamedUpTo P top answers →
      Catching P peers chain answers .finished

variable {peers : String → Blockchain} {answers : List (List BlockHeader)}

/-- The loop of puts starts from an initial segment and the blocks above `k₀`. -/
theorem catching_startInserting {k₀ : ℕ} {bs : List Block} (hold : HoldsUpTo P chain k) (hk : k₀ ≤ k)
    (hm : m < P.length) (hbs : ∀ c ∈ bs, ∃ i ≤ m, BlockAt P i c)
    (hcover : ∀ i, k₀ < i → i ≤ m → ∃ c ∈ bs, BlockAt P i c) (hnamed : NamedUpTo P m answers) :
    Catching P peers chain answers (.inserting bs) := by
  refine .inserting (Set.Iic k) (max k m) bs hold.2 (Nat.zero_le k) (max_lt hold.1 hm) ?_ ?_ ?_ ?_
  · intro i hi
    exact (Set.mem_Iic.mp hi).trans (le_max_left k m)
  · intro c hc
    obtain ⟨i, hi, hat⟩ := hbs c hc
    exact ⟨i, hi.trans (le_max_right k m), hat⟩
  · intro i hi
    by_cases hik : i ≤ k
    · exact .inl hik
    · have him : i ≤ m := by omega
      exact .inr (hcover i (by omega) him)
  · exact hnamed.mono (le_max_right k m)

/-- The download goes on with the longest answer, which names all that was named. -/
theorem catching_chooseLongest {k₀ : ℕ} {headers : List BlockHeader} {peer : String}
    {rest : HeaderPeerMap} (hold : HoldsUpTo P chain k) (hk : k₀ ≤ k)
    (hask : Asking P peers k₀ ((headers, peer) :: rest) answers) :
    Catching P peers chain answers
      (if headers.isEmpty then .inserting [] else .downloading peer headers []) := by
  obtain ⟨hnodup, q, hlists, hreach⟩ := hask.entries (headers, peer) (by simp)
  have hlongest : ∀ hs ∈ answers, hs ⊆ headers := by
    intro hs hin
    obtain ⟨q', hlists'⟩ := hask.lists hs hin
    obtain ⟨e, he, hlen⟩ := hask.sizes hs hin
    refine hlists'.subset hlists hnodup ?_
    rcases List.mem_cons.mp he with rfl | he
    · exact hlen.ge
    · have := (List.pairwise_cons.mp hask.ordered).1 e he
      change e.1.length < headers.length at this
      omega
  have hnamed : NamedUpTo P q answers := by
    intro hs hin h hh
    obtain ⟨i, _, hiq, hat⟩ := (hlists h).mp (hlongest hs hin hh)
    exact ⟨i, hiq, hat⟩
  obtain ⟨r, hqr, hpeer⟩ := hreach
  have hq : q < P.length := lt_of_le_of_lt hqr hpeer.1
  split
  · rename_i hempty
    refine catching_startInserting hold hk hq (by simp) ?_ hnamed
    intro i hki hiq
    obtain ⟨h, hat⟩ := exists_headerAt (lt_of_le_of_lt hiq hq)
    have hin := (hlists h).mpr ⟨i, hki, hiq, hat⟩
    rw [List.isEmpty_iff.mp hempty] at hin
    cases hin
  · refine .downloading k₀ k q peer headers [] hold hk ⟨r, hqr, hpeer⟩ ?_ (by simp) ?_ hnamed
    · intro h hh
      obtain ⟨i, _, hiq, hat⟩ := (hlists h).mp hh
      exact ⟨i, hiq, hat⟩
    · intro i hki hiq
      obtain ⟨h, hat⟩ := exists_headerAt (lt_of_le_of_lt hiq hq)
      exact .inl ⟨h, (hlists h).mpr ⟨i, hki, hiq, hat⟩, hat⟩

/-- Another peer answers the question. -/
theorem Asking.answer {k₀ : ℕ} {a : Block} {map : HeaderPeerMap} {id : String} (hP : Published D P)
    (h : Asking P peers k₀ map answers) (ha : P[k₀]? = some a) (hold : HoldsUpTo P (peers id) q) :
    Asking P peers k₀ (emplace (getAllAfter (peers id) a.header) id map)
      (answers ++ [getAllAfter (peers id) a.header]) := by
  have hlists : Lists P k₀ q (getAllAfter (peers id) a.header) :=
    fun x => mem_getAllAfter_iff hP hold ha
  refine ⟨?_, ?_, emplace_ordered h.ordered, ?_⟩
  · intro hs hin
    rcases List.mem_append.mp hin with hin | hin
    · exact h.lists hs hin
    · rw [List.mem_singleton] at hin
      exact ⟨q, hin ▸ hlists⟩
  · intro e he
    rcases mem_emplace he with rfl | he
    · exact ⟨getAllAfter_nodup _ _, q, hlists, q, le_rfl, hold⟩
    · exact h.entries e he
  · intro hs hin
    rcases List.mem_append.mp hin with hin | hin
    · obtain ⟨e, he, hlen⟩ := h.sizes hs hin
      exact ⟨e, mem_emplace_of_mem he, hlen⟩
    · rw [List.mem_singleton] at hin
      rw [hin]
      exact size_mem_emplace _ id map

/-- The peer answers the next request with the block at the position of the header. -/
theorem catching_blockAnswer {k₀ : ℕ} {peer : String} {header : BlockHeader}
    {headers : List BlockHeader} {bs : List Block} (hP : Published D P) (hold : HoldsUpTo P chain k)
    (hk : k₀ ≤ k) (hreach : Reaches P peers peer m)
    (hhs : ∀ h ∈ header :: headers, ∃ i ≤ m, HeaderAt P i h) (hbs : ∀ c ∈ bs, ∃ i ≤ m, BlockAt P i c)
    (hcover : ∀ i, k₀ < i → i ≤ m → (∃ h ∈ header :: headers, HeaderAt P i h) ∨ ∃ c ∈ bs, BlockAt P i c)
    (hnamed : NamedUpTo P m answers) :
    ∃ c, onBlockRequest (peers peer) header = .blockResponse c ∧
      Catching P peers chain answers (.downloading peer headers (bs ++ [c])) := by
  obtain ⟨q, hmq, hpeer⟩ := hreach
  obtain ⟨i, him, hi⟩ := hhs header (by simp)
  obtain ⟨c, hanswer, hc⟩ := onBlockRequest_of_holds hpeer hi (him.trans hmq)
  refine ⟨c, hanswer, .downloading k₀ k m peer headers (bs ++ [c]) hold hk ⟨q, hmq, hpeer⟩ ?_ ?_ ?_ hnamed⟩
  · intro h hh
    exact hhs h (List.mem_cons_of_mem _ hh)
  · intro d hd
    rcases List.mem_append.mp hd with hd | hd
    · exact hbs d hd
    · rw [List.mem_singleton] at hd
      exact ⟨i, him, hd ▸ hc⟩
  · intro j hkj hjm
    rcases hcover j hkj hjm with ⟨h, hh, hj⟩ | ⟨d, hd, hj⟩
    · rcases List.mem_cons.mp hh with rfl | hh
      · have hij := hi.unique hP hj
        exact .inr ⟨c, by simp, hij ▸ hc⟩
      · exact .inl ⟨h, hh, hj⟩
    · exact .inr ⟨d, List.mem_append_left _ hd, hj⟩

/-- A put takes a position from those to come to those held. -/
theorem catching_put {I : Set ℕ} {top : ℕ} {bs : List Block} (hP : Published D P)
    (hold : HoldsAt P chain I) (h0 : 0 ∈ I) (htop : top < P.length) (hI : ∀ i ∈ I, i ≤ top)
    (hbs : ∀ d ∈ c :: bs, ∃ i ≤ top, BlockAt P i d)
    (hcover : ∀ i ≤ top, i ∈ I ∨ ∃ d ∈ c :: bs, BlockAt P i d) (hnamed : NamedUpTo P top answers) :
    Catching P peers (chain.put c).2 answers (.inserting bs) := by
  obtain ⟨j, hj, b, hb, hcb⟩ := hbs c (by simp)
  refine .inserting (insert j I) top bs (hold.put hP hb hcb) (Set.mem_insert_of_mem j h0) htop
    ?_ ?_ ?_ hnamed
  · intro i hi
    rcases hi with rfl | hi
    · exact hj
    · exact hI i hi
  · intro d hd
    exact hbs d (List.mem_cons_of_mem _ hd)
  · intro i hi
    rcases hcover i hi with hin | ⟨d, hd, hat⟩
    · exact .inl (Set.mem_insert_of_mem j hin)
    · rcases List.mem_cons.mp hd with rfl | hd
      · obtain ⟨b', hb', hdb'⟩ := hat
        -- the block is at one position only
        have hhash : b.hash = b'.hash := by
          rw [← Block.verified_hash b, ← hcb, hdb', Block.verified_hash]
        exact .inl (hP.listed.key_inj hb hb' hhash ▸ Set.mem_insert j I)
      · exact .inr ⟨d, hd, hat⟩

/-! ## Steps and runs -/

/-- What the invariant says of a download. -/
def CaughtUpTo (P : List Block) (peers : String → Blockchain) (s : Download) : Prop :=
  Catching P peers s.node.blockchain s.responses s.stage

theorem catching_resume {s : Download} (hP : Published D P) (h : CaughtUpTo P peers s) :
    CaughtUpTo P peers (resume s) := by
  obtain ⟨node, stage, responses⟩ := s
  unfold CaughtUpTo at h ⊢
  have hsame := h
  cases h with
  | initial k hold hnil =>
    obtain ⟨a, ha⟩ : ∃ a, P[k]? = some a := ⟨_, List.getElem?_eq_getElem hold.1⟩
    have hlast : node.blockchain.last.header = a.header :=
      hold.2.last_header hP (Nat.zero_le k) (Set.mem_Iic.mpr le_rfl) (fun _ hi => hi) ha
    change Catching P peers node.blockchain responses (.waiting node.blockchain.last.header)
    rw [hlast]
    exact .waiting k k a hold hnil le_rfl ha
  | waiting k₀ k a hold hnil hk ha => exact hsame
  | requesting k₀ k a ids map hold hk ha hask =>
    cases ids with
    | cons id ids => exact hsame
    | nil =>
      cases map with
      | nil => exact hsame
      | cons entry rest =>
        have hnext := catching_chooseLongest hold hk hask
        simp only [resume]
        split
        · rename_i hempty
          rwa [if_pos hempty] at hnext
        · rename_i hempty
          rwa [if_neg hempty] at hnext
  | downloading k₀ k m peer hs bs hold hk hreach hhs hbs hcover hnamed =>
    cases hs with
    | cons header headers => exact hsame
    | nil =>
      obtain ⟨q, hmq, hpeer⟩ := hreach
      refine catching_startInserting hold hk (lt_of_le_of_lt hmq hpeer.1) hbs ?_ hnamed
      intro i hki him
      rcases hcover i hki him with ⟨h, hh, _⟩ | hc
      · cases hh
      · exact hc
  | inserting I top bs hold h0 htop hI hbs hcover hnamed =>
    cases bs with
    | cons c bs => exact catching_put hP hold h0 htop hI hbs hcover hnamed
    | nil =>
      -- nothing is left to put: the positions held are all up to `top`
      have hset : I = Set.Iic top := by
        ext i
        refine ⟨fun hi => hI i hi, fun hi => ?_⟩
        rcases hcover i hi with hin | ⟨d, hd, _⟩
        · exact hin
        · cases hd
      exact .finished top ⟨htop, hset ▸ hold⟩ hnamed
  | finished top hold hnamed => exact hsame

theorem catching_downloadStep {s : Download} {i : Input} (hP : Published D P)
    (hpeers : ∀ id, ∃ q, HoldsUpTo P (peers id) q) (hans : Answered peers s i)
    (h : CaughtUpTo P peers s) : CaughtUpTo P peers (downloadStep s i) := by
  cases i with
  | resume => exact catching_resume hP h
  | peersFound identities =>
    obtain ⟨node, stage, responses⟩ := s
    cases stage with
    | waiting header =>
      cases h with
      | waiting k₀ k a hold hnil hk ha =>
        have hnil : responses = [] := hnil
        refine .requesting k₀ k a identities [] hold hk ha ⟨?_, by simp, List.Pairwise.nil, ?_⟩
        · intro hs hin
          change hs ∈ responses at hin
          rw [hnil] at hin; cases hin
        · intro hs hin
          change hs ∈ responses at hin
          rw [hnil] at hin; cases hin
    | _ => exact h
  | headersResponse headers sender =>
    obtain ⟨node, stage, responses⟩ := s
    cases stage with
    | requesting header identities map =>
      cases identities with
      | nil => exact h
      | cons id identities =>
        obtain ⟨hheaders, rfl⟩ := hans
        cases hheaders
        cases h with
        | requesting k₀ k a ids map hold hk ha hask =>
          obtain ⟨q, hq⟩ := hpeers sender
          exact .requesting k₀ k a identities _ hold hk ha (hask.answer hP ha hq)
    | _ => exact h
  | blockAnswer message =>
    obtain ⟨node, stage, responses⟩ := s
    cases stage with
    | downloading peer headers blocks =>
      cases headers with
      | nil => exact h
      | cons header headers =>
        cases h with
        | downloading k₀ k m peer hs bs hold hk hreach hhs hbs hcover hnamed =>
          obtain ⟨c, hc, hnext⟩ := catching_blockAnswer hP hold hk hreach hhs hbs hcover hnamed
          have hmessage : message = .blockResponse c := hans.trans hc
          subst hmessage
          exact hnext
    | _ => exact h

/-- In a store with gaps a live block is still only let in on top of all that is held. -/
theorem catching_live_inserting {n : Node} {e : Event} {I : Set ℕ} {top : ℕ} {bs : List Block}
    (hP : Published D P) (he : Delivered P e) (hold : HoldsAt P n.blockchain I) (h0 : 0 ∈ I)
    (htop : top < P.length) (hI : ∀ i ∈ I, i ≤ top) (hbs : ∀ c ∈ bs, ∃ i ≤ top, BlockAt P i c)
    (hcover : ∀ i ≤ top, i ∈ I ∨ ∃ c ∈ bs, BlockAt P i c) (hnamed : NamedUpTo P top answers) :
    Catching P peers (handle n e).blockchain answers (.inserting bs) := by
  rcases delivered_cases n he with hsame | ⟨j, b, hb, hacc, hput⟩
  · rw [hsame]
    exact .inserting I top bs hold h0 htop hI hbs hcover hnamed
  · obtain ⟨k, hk, hmax⟩ := Set.exists_max_image I id ((Set.finite_Iic top).subset hI) ⟨0, h0⟩
    have hkP : k < P.length := lt_of_le_of_lt (hI k hk) htop
    obtain ⟨rfl, _⟩ := (hold.accepts_iff hP h0 hk hmax hkP hb).mp hacc
    have hlt : k + 1 < P.length := (List.getElem?_eq_some_iff.mp hb).1
    rw [hput]
    refine .inserting (insert (k + 1) I) (max top (k + 1)) bs (hold.put hP hb (Block.verified_verified b))
      (Set.mem_insert_of_mem _ h0) (max_lt htop hlt) ?_ ?_ ?_ (hnamed.mono (le_max_left _ _))
    · intro i hi
      rcases hi with rfl | hi
      · exact le_max_right _ _
      · exact (hI i hi).trans (le_max_left _ _)
    · intro c hc
      obtain ⟨i, hi, hat⟩ := hbs c hc
      exact ⟨i, hi.trans (le_max_left _ _), hat⟩
    · intro i hi
      by_cases hik : i = k + 1
      · exact .inl (.inl hik)
      · -- `k ≤ top`, so everything else up to the new top was covered before
        have hktop := hI k hk
        rcases hcover i (by omega) with hin | hin
        · exact .inl (.inr hin)
        · exact .inr hin

theorem catching_live {s : Download} {e : Event} (hP : Published D P) (he : Delivered P e)
    (h : CaughtUpTo P peers s) : CaughtUpTo P peers { s with node := handle s.node e } := by
  obtain ⟨node, stage, responses⟩ := s
  unfold CaughtUpTo at h ⊢
  change Catching P peers (handle node e).blockchain responses stage
  cases h with
  | initial k hold hnil =>
    obtain ⟨k', _, hold'⟩ := holdsUpTo_handle hP hold e he
    exact .initial k' hold' hnil
  | waiting k₀ k a hold hnil hk ha =>
    obtain ⟨k', hkk, hold'⟩ := holdsUpTo_handle hP hold e he
    exact .waiting k₀ k' a hold' hnil (hk.trans hkk) ha
  | requesting k₀ k a ids map hold hk ha hask =>
    obtain ⟨k', hkk, hold'⟩ := holdsUpTo_handle hP hold e he
    exact .requesting k₀ k' a ids map hold' (hk.trans hkk) ha hask
  | downloading k₀ k m peer hs bs hold hk hreach hhs hbs hcover hnamed =>
    obtain ⟨k', hkk, hold'⟩ := holdsUpTo_handle hP hold e he
    exact .downloading k₀ k' m peer hs bs hold' (hk.trans hkk) hreach hhs hbs hcover hnamed
  | inserting I top bs hold h0 htop hI hbs hcover hnamed =>
    exact catching_live_inserting hP he hold h0 htop hI hbs hcover hnamed
  | finished top hold hnamed =>
    obtain ⟨k', hkk, hold'⟩ := holdsUpTo_handle hP hold e he
    exact .finished k' hold' (hnamed.mono hkk)

/-- A peer that stores the next block of `P` still holds an initial segment. -/
theorem reaches_grow {id : String} {block : Block} (hP : Published D P)
    (hnext : ∃ b ∈ P, block.verified = b.verified ∧
      (peers id).last.timestamp < b.timestamp ∧ b.previousHash = (peers id).last.hash)
    (x : String) (hreach : Reaches P peers x m) :
    Reaches P (Function.update peers id ((peers id).put block).2) x m := by
  obtain ⟨q, hmq, hq⟩ := hreach
  by_cases hx : x = id
  · subst hx
    obtain ⟨b, hbP, hblock, hts, hprev⟩ := hnext
    obtain ⟨j, hj⟩ := List.mem_iff_getElem?.mp hbP
    obtain ⟨a, ha⟩ : ∃ a, P[q]? = some a := ⟨_, List.getElem?_eq_getElem hq.1⟩
    have hlast := hq.2.last_header hP (Nat.zero_le q) (Set.mem_Iic.mpr le_rfl) (fun _ hi => hi) ha
    have hats : (peers x).last.timestamp = a.timestamp := congrArg BlockHeader.timestamp hlast
    have hahash : (peers x).last.hash = a.hash := congrArg BlockHeader.hash hlast
    rw [hats] at hts
    rw [hahash] at hprev
    have hjq : j = q + 1 := (hP.listed.next_iff ha hj).mp ⟨hts, hprev⟩
    subst hjq
    refine ⟨q + 1, by omega, (List.getElem?_eq_some_iff.mp hj).1, ?_⟩
    rw [Function.update_self]
    have hset : insert (q + 1) (Set.Iic q) = Set.Iic (q + 1) := by
      ext i; simp only [Set.mem_insert_iff, Set.mem_Iic]; omega
    rw [← hset]
    exact hq.2.put hP hj hblock
  · refine ⟨q, hmq, ?_⟩
    rw [Function.update_of_ne hx]
    exact hq

theorem catching_grow {s : Download} {peers' : String → Blockchain}
    (hgrow : ∀ x m, Reaches P peers x m → Reaches P peers' x m) (h : CaughtUpTo P peers s) :
    CaughtUpTo P peers' s := by
  obtain ⟨node, stage, responses⟩ := s
  unfold CaughtUpTo at h ⊢
  cases h with
  | initial k hold hnil => exact .initial k hold hnil
  | waiting k₀ k a hold hnil hk ha => exact .waiting k₀ k a hold hnil hk ha
  | requesting k₀ k a ids map hold hk ha hask =>
    refine .requesting k₀ k a ids map hold hk ha ⟨hask.lists, ?_, hask.ordered, hask.sizes⟩
    intro e he
    obtain ⟨hnodup, q, hlists, hreach⟩ := hask.entries e he
    exact ⟨hnodup, q, hlists, hgrow e.2 q hreach⟩
  | downloading k₀ k m peer hs bs hold hk hreach hhs hbs hcover hnamed =>
    exact .downloading k₀ k m peer hs bs hold hk (hgrow peer m hreach) hhs hbs hcover hnamed
  | inserting I top bs hold h0 htop hI hbs hcover hnamed =>
    exact .inserting I top bs hold h0 htop hI hbs hcover hnamed
  | finished top hold hnamed => exact .finished top hold hnamed

/-- The invariant of the node with its peers. -/
def InSync (P : List Block) (s : Sync) : Prop :=
  (∀ id, Reaches P s.peers id 0) ∧ CaughtUpTo P s.peers s.download

theorem inSync_syncStep (hP : Published D P) (s : Sync) (a : SyncAction) (hok : Honest P s a)
    (h : InSync P s) : InSync P (syncStep s a) := by
  obtain ⟨hpeers, hdown⟩ := h
  cases a with
  | download i =>
    refine ⟨hpeers, catching_downloadStep hP ?_ hok hdown⟩
    intro id
    obtain ⟨q, _, hq⟩ := hpeers id
    exact ⟨q, hq⟩
  | live e => exact ⟨hpeers, catching_live hP hok hdown⟩
  | grow id block =>
    have hgrow : ∀ x m, Reaches P s.peers x m →
        Reaches P (Function.update s.peers id ((s.peers id).put block).2) x m :=
      fun x m hx => reaches_grow hP hok x hx
    exact ⟨fun x => hgrow x 0 (hpeers x), catching_grow hgrow hdown⟩

/-- What a finished download leaves: an initial segment of `P` with every block
that was named. -/
theorem CaughtUpTo.of_finished {s : Download} (h : CaughtUpTo P peers s) (hfin : s.stage = .finished) :
    ∃ top, HoldsUpTo P s.node.blockchain top ∧ NamedUpTo P top s.responses := by
  unfold CaughtUpTo at h
  rw [hfin] at h
  cases h with
  | finished top hold hnamed => exact ⟨top, hold, hnamed⟩

/-- **The download closes its gaps.** A node whose chain is an initial segment of
`P` downloads from peers that hold initial segments of `P` and may grow, while
blocks of `P` and transactions arrive live at any moment. In every such run,
once the download is finished the chain is an initial segment of `P` and has
every block that any header response named, the longest one included. -/
theorem download_closes_gaps (D : Digest) (P : List Block) (hP : Published D P) (n : Node) (k : ℕ)
    (hn : HoldsUpTo P n.blockchain k) (peers : String → Blockchain)
    (hpeers : ∀ id, ∃ q, HoldsUpTo P (peers id) q) (acts : List SyncAction)
    (hok : Along syncStep (Honest P) { download := begin n, peers := peers } acts)
    (hfin : (run syncStep { download := begin n, peers := peers } acts).download.stage = .finished) :
    let s := (run syncStep { download := begin n, peers := peers } acts).download
    (∃ k', HoldsUpTo P s.node.blockchain k') ∧
      ∀ headers ∈ s.responses, ∀ h ∈ headers, ∃ b ∈ s.node.blockchain.data, b.header = h := by
  intro s
  have hstart : InSync P { download := begin n, peers := peers } := by
    refine ⟨?_, .initial k hn rfl⟩
    intro id
    obtain ⟨q, hq⟩ := hpeers id
    exact ⟨q, Nat.zero_le q, hq⟩
  have hend : InSync P (run syncStep { download := begin n, peers := peers } acts) :=
    run_keeps_along (inSync_syncStep hP) acts hok hstart
  obtain ⟨top, hold, hnamed⟩ := hend.2.of_finished hfin
  refine ⟨⟨top, hold⟩, ?_⟩
  intro headers hin h hh
  obtain ⟨i, hi, b, hb, hbh⟩ := hnamed headers hin h hh
  obtain ⟨c, hc, hcb⟩ := hold.2.exists_stored (Set.mem_Iic.mpr hi) hb
  refine ⟨c, hc, ?_⟩
  rw [← hbh, ← Block.verified_header c, hcb, Block.verified_header]

/-! ### A closed run -/

/-- Both blocks of the sample chain, as the peer stores them. -/
def sampleB1 : Block := sampleBlock "0000B1" "0000B2" 1670000002000 []

def sampleB2 : Block := sampleBlock "0000B2" genesisHash 1670000001000 [sampleVote "AA"]

/-- The peer grows while the node waits; its newest block is put first, a live
delivery of the one before it comes into the gap, and the next put closes it. -/
def gapRun : List SyncAction :=
  [.grow "peer" sampleB2, .download .resume, .download (.peersFound ["peer"]), .grow "peer" sampleB1,
    .download (.headersResponse [sampleB1.header, sampleB2.header] "peer"), .download .resume,
    .download (.blockAnswer (.blockResponse sampleB1)), .live (.addTransaction (sampleVote "AA") true),
    .download (.blockAnswer (.blockResponse sampleB2)), .download .resume, .download .resume,
    .live (.addBlock "peer" sampleB2), .download .resume, .download .resume]

theorem download_closes_gaps_gapRun :
    Along syncStep (Honest sampleChain)
        { download := begin (start sampleDigest), peers := fun _ => (start sampleDigest).blockchain } gapRun ∧
      ∃ k', HoldsUpTo sampleChain (run syncStep
        { download := begin (start sampleDigest), peers := fun _ => (start sampleDigest).blockchain }
        gapRun).download.node.blockchain k' := by
  have hstart : HoldsUpTo sampleChain (start sampleDigest).blockchain 0 :=
    holdsUpTo_genesis sampleChain_published (stored_fromPath_empty sampleDigest)
  have hok : Along syncStep (Honest sampleChain)
      { download := begin (start sampleDigest), peers := fun _ => (start sampleDigest).blockchain } gapRun := by
    decide +kernel
  have hfin : (run syncStep
      { download := begin (start sampleDigest), peers := fun _ => (start sampleDigest).blockchain }
      gapRun).download.stage = .finished := by decide +kernel
  exact ⟨hok, (download_closes_gaps sampleDigest sampleChain sampleChain_published (start sampleDigest) 0
    hstart _ (fun _ => ⟨0, hstart⟩) gapRun hok hfin).1⟩

end Krapi.CatchUp
