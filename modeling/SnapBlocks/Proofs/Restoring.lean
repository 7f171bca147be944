import SnapBlocks.Program.Compile
import SnapBlocks.Proofs.Arrangement
import SnapBlocks.Proofs.Derived
import SnapBlocks.Proofs.Replay

/-! Saving and loading a graph of a session gives it back. The replay of its links ends with all
of them; the links determine what is derived; and what is saved or compiled depends on the tables
of blocks and snap points alone. -/

namespace SnapBlocks

open SnapBlocks.Graph

/-! ## What the tables decide -/

section
variable {g h : Graph} (hb : g.blocks = h.blocks) (hs : g.snaps = h.snaps)

include hb in
theorem Graph.block_of_tables (id : BlockId) : g.block id = h.block id := by
  unfold block
  rw [hb]

include hs in
theorem Graph.snap_of_tables (id : SnapId) : g.snap id = h.snap id := by
  unfold snap
  rw [hs]

include hs in
theorem Graph.owner_of_tables (id : SnapId) : g.owner id = h.owner id := by
  unfold owner
  rw [snap_of_tables hs]

include hb hs

theorem Graph.primaryNext_of_tables (id : BlockId) : g.primaryNext id = h.primaryNext id := by
  have howner? (x : Option SnapId) : g.owner? x = h.owner? x := by
    cases x with
    | none => rfl
    | some i => unfold owner?; simp only [owner_of_tables hs]
  unfold primaryNext
  simp only [block_of_tables hb, snap_of_tables hs, howner?]

theorem Graph.globalPosition_of_tables (id : BlockId) :
    g.globalPosition id = h.globalPosition id := by
  have hwithin (room : Nat) (id start : BlockId) :
      g.positionWithin start room id = h.positionWithin start room id := by
    induction room generalizing id with
    | zero => rfl
    | succ room ih =>
      unfold positionWithin
      simp only [block_of_tables hb, snap_of_tables hs, ih]
  unfold globalPosition size
  rw [hb, hwithin]

/-- What is saved depends on the tables alone. -/
theorem Document.ofGraph_of_tables : ofGraph g = ofGraph h := by
  have hblock (b : Block) : saveBlock g b = saveBlock h b := by
    unfold saveBlock
    rw [globalPosition_of_tables hb hs]
  have hlink (n : SnapId) : saveLink g n = saveLink h n := by
    unfold saveLink
    simp only [snap_of_tables hs]
  have hlinks (d : Document) (l : List SnapId) : saveLinks g d l = saveLinks h d l := by
    induction l generalizing d with
    | nil => rfl
    | cons n rest ih =>
      rw [saveLinks, saveLinks]
      simp only [hlink, ih]
  have hblocks (d : Document) (l : List Block) : saveBlocks g d l = saveBlocks h d l := by
    induction l generalizing d with
    | nil => rfl
    | cons b rest ih =>
      rw [saveBlocks, saveBlocks]
      simp only [hblock, hlinks, ih]
  unfold ofGraph blockList
  rw [hb, hblocks]

theorem Compile.chainFrom_of_tables (room : Nat) (start id : BlockId) :
    chainFrom g room start id = chainFrom h room start id := by
  have hscopes (l : List SnapId) : linkedScopes g l = linkedScopes h l := by
    induction l with
    | nil => rfl
    | cons n rest ih =>
      rw [linkedScopes, linkedScopes]
      simp only [snap_of_tables hs, ih]
  have hbranches (b : Block) (compile : BlockId → Step Chain) (l : List (String × SnapId)) :
      branchList g b compile l = branchList h b compile l := by
    induction l with
    | nil => rfl
    | cons p rest ih =>
      rw [branchList, branchList]
      simp only [owner_of_tables hs, ih]
  induction room generalizing start id with
  | zero =>
    rw [chainFrom, chainFrom]
    simp only [block_of_tables hb]
  | succ room ih =>
    rw [chainFrom, chainFrom]
    simp only [block_of_tables hb, hscopes, hbranches, primaryNext_of_tables hb hs, ih]

theorem Graph.compileChain_of_tables (root : BlockId) :
    g.compileChain root = h.compileChain root := by
  unfold compileChain Compile.chain size
  rw [hb, Compile.chainFrom_of_tables hb hs]

/-- What is compiled depends on the tables alone. -/
theorem Graph.compile_of_tables : g.compile = h.compile := by
  have hentries : g.entries = h.entries := by
    unfold entries roots blockList
    rw [hb]
  have hchains (l : List BlockId) : Compile.chains g l = Compile.chains h l := by
    induction l with
    | nil => rfl
    | cons root rest ih =>
      rw [Compile.chains, Compile.chains, ih]
      unfold Compile.chain size
      rw [hb]
      simp only [Compile.chainFrom_of_tables hb hs]
  unfold compile
  rw [hentries, hchains]

end

namespace Document

variable {g m : Graph} {ns : SnapId → Prop}

/-- A replay that came to its end has the shape of the saved graph. -/
theorem Replays.shape (S : g.Sound Definition.Coherent)
    (R : Replays g (fun _ => True) (fun _ => True) m) (P : Replaced g (fun _ => True) m) :
    m.shape = g.shape := by
  have hstock := R.stock S
  refine view_ext R.config R.layout (fun i => ?_) (fun i => ?_) (notches_eq_of_view hstock)
    (divots_eq_of_view hstock)
  · cases hb : m.blocks[i]? with
    | none => rw [blocks_eq_none_of_view hstock hb]
    | some c =>
      obtain ⟨b, hb', _⟩ := exists_block_of_view hstock hb
      obtain ⟨hdef, hinputs⟩ := R.block hb' hb
      have hpl := P i b c trivial hb' hb
      have hid : c.id = b.id := (R.sound.block_id hb).trans (S.block_id hb').symm
      rw [hb', Option.map_some, Option.map_some, Block.bare, Block.bare, hid, hdef, hinputs, hpl]
  · cases hq : m.snaps[i]? with
    | none => rw [snaps_eq_none_of_view hstock hq]
    | some q =>
      obtain ⟨p, hp, hqp⟩ := exists_snap_of_view hstock hq
      have hlinked (n e : SnapId) : m.Linked n e ↔ g.Linked n e := by
        rw [R.linked, true_and]
      have hnext : q.next = p.next := by
        refine Option.ext fun e => ?_
        rw [← linked_iff_next hq, hlinked, linked_iff_next hp]
      have hprevious : q.previous = p.previous := by
        refine Option.ext fun n => ?_
        rw [← R.sound.linked_iff_previous hq, hlinked, S.linked_iff_previous hp]
      rw [hp, Option.map_some, Option.map_some]
      obtain ⟨hid, hblock, hseg, hindex, hkind⟩ := SnapPoint.eq_of_blank hqp
      cases q
      cases p
      simp_all [SnapPoint.unplaced]

/-- **Restoring.** A saved graph is replayed to the end, and nothing is skipped. -/
theorem Records.toGraph_run (S : g.Sound Definition.Coherent) (hlayout : g.layout = .stacked)
    {d : Document} (R : Records g (fun _ => True) (fun _ => True) d) (catalog : Catalog) :
    ∃ m, d.toGraph catalog g.config = (.ok m, []) ∧ m.Sound Definition.Coherent ∧
      m.shape = g.shape := by
  have hblocks : ∀ p ∈ d.blocks.toList, ∃ b, g.blocks[p.1]? = some b ∧ saveBlock g b = .ok p.2 :=
    fun p hp => (R.blocks.mp (Table.mem_toList.mp hp)).2
  have hlinks : ∀ p ∈ d.notches.toList, g.Linked p.1 p.2.divotId := fun p hp =>
    (linked_of_saveLink S.toWired (R.notches.mp (Table.mem_toList.mp hp)).2).1
  have hids (i : BlockId) (hi : i ∈ g.blocks) : i ∈ d.blocks.toList.map (·.1) := by
    obtain ⟨b, hb⟩ := Table.mem_iff.mp hi
    obtain ⟨saved, hsaved⟩ := exists_saveBlock S.toStocked S.placed hb
    have hsaved := R.blocks.mpr ⟨trivial, b, hb, hsaved⟩
    exact List.mem_map.mpr ⟨(i, saved), Table.mem_toList.mpr hsaved, rfl⟩
  have hns (n e : SnapId) (hl : g.Linked n e) : n ∈ d.notches.toList.map (·.1) := by
    obtain ⟨link, hlink, _⟩ := saveLink_linked S.toWired hl
    have hlink := R.notches.mpr ⟨trivial, hlink⟩
    exact List.mem_map.mpr ⟨(n, link), Table.mem_toList.mpr hlink, rfl⟩
  obtain ⟨m₁, hrun₁, R₁⟩ := (replays_empty g catalog hlayout).loadBlocks_run [] S
    Table.toList_keys_nodup fun p hp => ⟨id, hblocks p hp⟩
  have R₁ : Replays g (fun _ => True) (fun _ => False) m₁ :=
    R₁.congr (fun i hi => by simpa using hids i hi) fun _ _ _ => .rfl
  obtain ⟨m₂, hrun₂, R₂⟩ := R₁.loadLinks_run S [] Table.toList_keys_nodup
    fun p hp => ⟨id, hlinks p hp⟩
  have R₂ : Replays g (fun _ => True) (fun _ => True) m₂ :=
    R₂.congr (fun _ _ => .rfl) fun n e hl => by simpa using hns n e hl
  have hstart : Replaced g (fun _ => False) m₂ := fun _ _ _ hno => hno.elim
  obtain ⟨m, hrun, R', P⟩ := R₂.loadOffsets_run [] S hstart fun p hp => by
    obtain ⟨b, hb, hsaved⟩ := hblocks p hp
    exact ⟨b, hb, (saveBlock_eq_ok hsaved).2.2.1⟩
  refine ⟨m, ?_, R'.sound, R'.shape S fun i b c _ hb hc => ?_⟩
  · have hload : d.load.run ⟨.empty catalog g.config, []⟩ = (.ok (), ⟨m, []⟩) := by
      unfold load
      rw [Load.run_bind_ok hrun₁, Load.run_bind_ok hrun₂, hrun]
    rw [toGraph_eq, hload]
    rfl
  · exact P i b c (.inl (hids i (Table.mem_iff.mpr ⟨b, hb⟩))) hb hc

end Document

namespace Graph

variable {g : Graph}

/-- **A graph with all that another holds.** -/
structure Restores (g h : Graph) : Prop where
  config : h.config = g.config
  /-- Definitions, inputs, placements and caches. -/
  blocks : h.blocks = g.blocks
  /-- Links and local positions. -/
  snaps : h.snaps = g.snaps
  notches : h.notches = g.notches
  divots : h.divots = g.divots
  saved : Document.ofGraph h = Document.ofGraph g
  compiled : h.compile = g.compile
  compiledChain (root : BlockId) : h.compileChain root = g.compileChain root

/-- **Saving and loading.** A graph of a session comes back from its document as it was. -/
theorem Reachable.restored (hg : Reachable Definition.Coherent g) (hlayout : g.layout = .stacked)
    (catalog : Catalog) : ∃ d h, Document.ofGraph g = .ok d ∧
      d.toGraph catalog g.config = (.ok h, []) ∧ g.Restores h := by
  have S := hg.sound fun _ hd => hd
  obtain ⟨d, hd, R⟩ := Document.ofGraph_eq S.toBase
  obtain ⟨h, hrun, S', hshape⟩ := R.toGraph_run S hlayout catalog
  have hblocks := S'.blocks_eq S hshape
  have hsnaps := S'.snaps_eq S hshape <| by
    rw [layout_eq_of_view hshape, hlayout]
    exact Layout.stacked_complete
  exact ⟨d, h, hd, hrun, config_eq_of_view hshape, hblocks, hsnaps, notches_eq_of_view hshape,
    divots_eq_of_view hshape, Document.ofGraph_of_tables hblocks hsnaps,
    compile_of_tables hblocks hsnaps, compileChain_of_tables hblocks hsnaps⟩

theorem restored_nestedGraph : (Document.nestedGraph.HangsFrom "c" "b" ∧
    Document.nestedGraph.HangsFrom "b" "a") ∧
      ∃ d h, Document.ofGraph Document.nestedGraph = .ok d ∧
        d.toGraph ∅ Document.nestedGraph.config = (.ok h, []) ∧
          Document.nestedGraph.Restores h := by
  have hlayout : Document.nestedGraph.layout = .stacked :=
    (Document.toGraph_sound (fun _ hd => hd.toCoherent) Document.nested_wellFormed
      Document.toGraph_nested).2
  exact ⟨Document.hangsFrom_nestedGraph, Reachable.restored
    (Document.reachable_nestedGraph.mono fun _ hd => hd.toCoherent) hlayout ∅⟩

end Graph

end SnapBlocks
