import Mathlib.Data.List.Nodup
import DistributedLog.Trace

/-!
# Joining and leaving the cluster

serf tells every node which members join and leave
(`internal/discovery/membership.go`), and on the leader
`distributed.Log.Join` and `Leave` change the configuration of the raft
cluster accordingly (`internal/log/distributed/distributed.go`). raft itself
is a parameter, `Raft`: it makes a change if the configuration that results
is `Valid`, and else rejects it. A `Configuration` is always a valid one.

`Join` walks the list of servers that it has read at the start, and whatever
a server matches by, the ID or the address, it removes the server with the
*joining* node's ID. So what the whole loop does is to remove that ID once
(`join_eq`), and a server that holds the address under another ID stays and
makes `AddVoter` fail.
-/

namespace DistributedLog.Cluster

/-- `raft.ServerSuffrage`. -/
inductive Suffrage where
  | voter
  | nonvoter
  | staging
deriving DecidableEq, Repr

/-- `raft.Server`. -/
structure Server where
  suffrage : Suffrage
  id : String
  address : String
deriving DecidableEq, Repr

/-- What raft checks of the servers of a configuration. -/
structure Valid (servers : List Server) : Prop where
  ids : (servers.map Server.id).Nodup
  addresses : (servers.map Server.address).Nodup
  nonempty : ∀ srv ∈ servers, srv.id ≠ "" ∧ srv.address ≠ ""
  voter : ∃ srv ∈ servers, srv.suffrage = .voter

instance decidableValid (servers : List Server) : Decidable (Valid servers) :=
  decidable_of_iff ((servers.map Server.id).Nodup ∧ (servers.map Server.address).Nodup ∧
      (∀ srv ∈ servers, srv.id ≠ "" ∧ srv.address ≠ "") ∧
      ∃ srv ∈ servers, srv.suffrage = .voter)
    ⟨fun h => ⟨h.1, h.2.1, h.2.2.1, h.2.2.2⟩,
      fun h => ⟨h.ids, h.addresses, h.nonempty, h.voter⟩⟩

/-- `raft.Configuration`, as raft has it. -/
structure Configuration where
  servers : List Server
  valid : Valid servers
deriving DecidableEq

/-- The servers left without the one with the ID. -/
def without (servers : List Server) (id : String) : List Server :=
  servers.filter fun srv => srv.id ≠ id

/-- The servers with a voter more, or with the one of that ID moved to the
address. -/
def withVoter (servers : List Server) (id addr : String) : List Server :=
  if ∃ srv ∈ servers, srv.id = id then
    servers.map fun srv => if srv.id = id then ⟨.voter, id, addr⟩ else srv
  else servers ++ [⟨.voter, id, addr⟩]

/-- What a configuration change that asks for `servers` comes to. -/
def Decided (servers : List Server) : Except String Configuration → Prop
  | .ok cfg => cfg.servers = servers
  | .error _ => ¬ Valid servers

/-- `raft.Raft` on the leader. A change takes effect as a whole or fails with
an error, and then the configuration is as it was. -/
structure Raft where
  removeServer : Configuration → String → Except String Configuration
  addVoter : Configuration → String → String → Except String Configuration
  removeServer_decided : ∀ cfg id, Decided (without cfg.servers id) (removeServer cfg id)
  addVoter_decided : ∀ cfg id addr,
    Decided (withVoter cfg.servers id addr) (addVoter cfg id addr)

/-- The end of `Join`: "Add the new server". -/
def addServer (R : Raft) (cfg : Configuration) (id addr : String) :
    Except String Unit × Configuration :=
  match R.addVoter cfg id addr with
  | .error err => (.error err, cfg)
  | .ok cfg => (.ok (), cfg)

/-- The loop of `Join` over the servers that are left, and what follows it. -/
def joinLoop (R : Raft) (id addr : String) :
    List Server → Configuration → Except String Unit × Configuration
  | [], cfg => addServer R cfg id addr
  | srv :: servers, cfg =>
      if srv.id = id ∨ srv.address = addr then
        if srv.address = addr ∧ srv.id = id then (.ok (), cfg)
        else
          match R.removeServer cfg id with
          | .error err =>
              (.error ("error removing existing node " ++ id ++ " at " ++ addr ++ ": " ++ err), cfg)
          | .ok cfg => joinLoop R id addr servers cfg
      else joinLoop R id addr servers cfg

/-- `distributed.Log.Join`. -/
def join (R : Raft) (cfg : Configuration) (id addr : String) :
    Except String Unit × Configuration :=
  joinLoop R id addr cfg.servers cfg

/-- `distributed.Log.Leave`. -/
def leave (R : Raft) (cfg : Configuration) (id : String) : Except String Unit × Configuration :=
  match R.removeServer cfg id with
  | .error err => (.error err, cfg)
  | .ok cfg => (.ok (), cfg)

/-! ## What raft decides -/

theorem Decided.ok {servers : List Server} {res : Except String Configuration}
    (h : Decided servers res) (hv : Valid servers) : res = .ok ⟨servers, hv⟩ := by
  cases res with
  | error err => exact absurd hv h
  | ok cfg =>
      obtain ⟨servers', hv'⟩ := cfg
      cases h
      rfl

theorem Decided.error {servers : List Server} {res : Except String Configuration}
    (h : Decided servers res) (hv : ¬ Valid servers) : ∃ err, res = .error err := by
  cases res with
  | error err => exact ⟨err, rfl⟩
  | ok cfg => exact absurd (h ▸ cfg.valid) hv

variable {R : Raft} {cfg : Configuration} {id addr : String}

theorem mem_without {servers : List Server} {srv : Server} :
    srv ∈ without servers id ↔ srv ∈ servers ∧ srv.id ≠ id := by
  rw [without, List.mem_filter, decide_eq_true_iff]

theorem without_eq_self {servers : List Server} (h : ∀ srv ∈ servers, srv.id ≠ id) :
    without servers id = servers :=
  List.filter_eq_self.mpr fun srv hsrv => decide_eq_true (h srv hsrv)

/-- Removing a server leaves a valid configuration if it leaves a voter. -/
theorem valid_without_iff {servers : List Server} (h : Valid servers) :
    Valid (without servers id) ↔ ∃ srv ∈ servers, srv.suffrage = .voter ∧ srv.id ≠ id := by
  constructor
  · intro hv
    obtain ⟨srv, hsrv, hvoter⟩ := hv.voter
    obtain ⟨hmem, hne⟩ := mem_without.mp hsrv
    exact ⟨srv, hmem, hvoter, hne⟩
  · rintro ⟨srv, hsrv, hvoter, hne⟩
    have hsub : (without servers id).Sublist servers := List.filter_sublist
    exact ⟨h.ids.sublist (hsub.map _), h.addresses.sublist (hsub.map _),
      fun srv hmem => h.nonempty srv (hsub.subset hmem),
      srv, mem_without.mpr ⟨hsrv, hne⟩, hvoter⟩

/-- A voter with a new ID can be added if its address is new too. -/
theorem valid_concat_iff {servers : List Server} (h : Valid servers)
    (hid : ∀ srv ∈ servers, srv.id ≠ id) :
    Valid (servers ++ [⟨.voter, id, addr⟩]) ↔
      id ≠ "" ∧ addr ≠ "" ∧ ∀ srv ∈ servers, srv.address ≠ addr := by
  constructor
  · intro hv
    obtain ⟨hne, hne'⟩ := hv.nonempty ⟨.voter, id, addr⟩
      (List.mem_append_right _ (List.mem_singleton_self _))
    refine ⟨hne, hne', fun srv hsrv heq => ?_⟩
    have haddr := hv.addresses
    rw [List.map_append, List.nodup_append] at haddr
    exact haddr.2.2 _ (List.mem_map_of_mem hsrv) _ (List.mem_singleton_self _) heq
  · rintro ⟨hne, hne', haddr⟩
    obtain ⟨srv, hsrv, hvoter⟩ := h.voter
    refine ⟨?_, ?_, ?_, srv, List.mem_append_left _ hsrv, hvoter⟩
    · rw [List.map_append, List.map_singleton, ← List.concat_eq_append]
      refine h.ids.concat fun hmem => ?_
      obtain ⟨srv, hsrv, heq⟩ := List.mem_map.mp hmem
      exact hid srv hsrv heq
    · rw [List.map_append, List.map_singleton, ← List.concat_eq_append]
      refine h.addresses.concat fun hmem => ?_
      obtain ⟨srv, hsrv, heq⟩ := List.mem_map.mp hmem
      exact haddr srv hsrv heq
    · intro srv hsrv
      rcases List.mem_append.mp hsrv with hsrv | hsrv
      · exact h.nonempty srv hsrv
      · rw [List.mem_singleton.mp hsrv]
        exact ⟨hne, hne'⟩

/-! ## What the loop comes to -/

/-- Adding the server once its ID is gone. -/
theorem addServer_cases (R : Raft) (addr : String) (hid : ∀ srv ∈ cfg.servers, srv.id ≠ id) :
    (∃ h : Valid (cfg.servers ++ [⟨.voter, id, addr⟩]),
      addServer R cfg id addr = (.ok (), ⟨_, h⟩)) ∨
    ¬ Valid (cfg.servers ++ [⟨.voter, id, addr⟩]) ∧
      ∃ err, addServer R cfg id addr = (.error err, cfg) := by
  have hwith : withVoter cfg.servers id addr = cfg.servers ++ [⟨.voter, id, addr⟩] := by
    rw [withVoter, if_neg]
    rintro ⟨srv, hsrv, heq⟩
    exact hid srv hsrv heq
  have hadd := R.addVoter_decided cfg id addr
  rw [hwith] at hadd
  by_cases hv : Valid (cfg.servers ++ [⟨.voter, id, addr⟩])
  · exact .inl ⟨hv, by rw [addServer, hadd.ok hv]⟩
  · obtain ⟨err, herr⟩ := hadd.error hv
    exact .inr ⟨hv, err, by rw [addServer, herr]⟩

/-- Neither server is the joining node itself. -/
def Other (id addr : String) (servers : List Server) : Prop :=
  ∀ srv ∈ servers, ¬ (srv.address = addr ∧ srv.id = id)

theorem Other.tail {srv : Server} {servers : List Server} (h : Other id addr (srv :: servers)) :
    Other id addr servers :=
  fun srv' hsrv => h srv' (List.mem_cons_of_mem _ hsrv)

/-- With the ID gone, the rest of the loop removes nothing. -/
theorem joinLoop_absent (hid : ∀ srv ∈ cfg.servers, srv.id ≠ id) :
    ∀ {servers : List Server}, Other id addr servers →
      joinLoop R id addr servers cfg = addServer R cfg id addr
  | [], _ => rfl
  | srv :: servers, h => by
      have hrem := R.removeServer_decided cfg id
      rw [without_eq_self hid] at hrem
      rw [joinLoop]
      split
      · rw [if_neg (h srv List.mem_cons_self), hrem.ok cfg.valid]
        exact joinLoop_absent hid h.tail
      · exact joinLoop_absent hid h.tail

/-- The first server that matches has the joining node's ID removed. -/
theorem joinLoop_removes (hv : Valid (without cfg.servers id)) :
    ∀ {servers : List Server}, Other id addr servers →
      (∃ srv ∈ servers, srv.id = id) →
      joinLoop R id addr servers cfg = addServer R ⟨without cfg.servers id, hv⟩ id addr
  | [], _, ⟨_, hmem, _⟩ => nomatch hmem
  | srv :: servers, h, ⟨srv', hmem, heq⟩ => by
      rw [joinLoop]
      split
      · rw [if_neg (h srv List.mem_cons_self), (R.removeServer_decided cfg id).ok hv]
        exact joinLoop_absent (fun srv hsrv => (mem_without.mp hsrv).2) h.tail
      · rename_i hno
        rcases List.mem_cons.mp hmem with rfl | hmem
        · exact absurd (.inl heq) hno
        · exact joinLoop_removes hv h.tail ⟨srv', hmem, heq⟩

/-- Where raft does not let go of the ID, the loop ends there. -/
theorem joinLoop_rejected (hv : ¬ Valid (without cfg.servers id)) :
    ∀ {servers : List Server}, Other id addr servers → (∃ srv ∈ servers, srv.id = id) →
      ∃ err, joinLoop R id addr servers cfg = (.error err, cfg)
  | [], _, ⟨_, hmem, _⟩ => nomatch hmem
  | srv :: servers, h, ⟨srv', hmem, heq⟩ => by
      rw [joinLoop]
      split
      · obtain ⟨err, herr⟩ := (R.removeServer_decided cfg id).error hv
        rw [if_neg (h srv List.mem_cons_self), herr]
        exact ⟨_, rfl⟩
      · rename_i hno
        rcases List.mem_cons.mp hmem with rfl | hmem
        · exact absurd (.inl heq) hno
        · exact joinLoop_rejected hv h.tail ⟨srv', hmem, heq⟩

/-- A node that is a member already: no other server matches, so the loop
gets to it. -/
theorem join_member {srv : Server} (hsrv : srv ∈ cfg.servers) (hid : srv.id = id)
    (haddr : srv.address = addr) : join R cfg id addr = (.ok (), cfg) := by
  have hloop : ∀ {servers : List Server}, servers ⊆ cfg.servers → srv ∈ servers →
      joinLoop R id addr servers cfg = (.ok (), cfg) := by
    intro servers hsub hmem
    induction servers with
    | nil => cases hmem
    | cons srv' servers ih =>
        have hmem' := hsub List.mem_cons_self
        by_cases heq : srv' = srv
        · rw [joinLoop, heq, if_pos (.inl hid), if_pos ⟨haddr, hid⟩]
        · have hne : ¬ (srv'.id = id ∨ srv'.address = addr) := by
            rintro (h | h)
            · exact heq (List.inj_on_of_nodup_map cfg.valid.ids hmem' hsrv (h.trans hid.symm))
            · exact heq (List.inj_on_of_nodup_map cfg.valid.addresses hmem' hsrv
                (h.trans haddr.symm))
          rw [joinLoop, if_neg hne]
          refine ih (fun x hx => hsub (List.mem_cons_of_mem _ hx)) ?_
          exact (List.mem_cons.mp hmem).resolve_left (Ne.symm heq)
  exact hloop (List.Subset.refl _) hsrv

theorem join_rejected (hother : Other id addr cfg.servers)
    (hv : ¬ Valid (without cfg.servers id)) :
    ∃ err, join R cfg id addr = (.error err, cfg) := by
  refine joinLoop_rejected hv hother ?_
  by_contra hno
  refine hv ?_
  rw [without_eq_self fun srv hsrv heq => hno ⟨srv, hsrv, heq⟩]
  exact cfg.valid

/-- For a node that is not a member: its ID is removed, if raft lets go of
it, and then it is added. -/
theorem join_eq (hother : Other id addr cfg.servers) (hv : Valid (without cfg.servers id)) :
    join R cfg id addr = addServer R ⟨without cfg.servers id, hv⟩ id addr := by
  by_cases hex : ∃ srv ∈ cfg.servers, srv.id = id
  · exact joinLoop_removes hv hother hex
  · have hid : ∀ srv ∈ cfg.servers, srv.id ≠ id := fun srv hsrv heq => hex ⟨srv, hsrv, heq⟩
    rw [join, joinLoop_absent hid hother]
    congr 1
    obtain ⟨servers, hvalid⟩ := cfg
    simp only [without_eq_self hid]

/-- **What `Join` does** for a node that is not a member. It joins; or its
old entry is gone and it is not added, for its address is empty or in use;
or nothing happens, since its old entry is that of the only voter. -/
theorem join_cases (R : Raft) (hother : Other id addr cfg.servers) :
    (∃ h : Valid (without cfg.servers id ++ [⟨.voter, id, addr⟩]),
      join R cfg id addr = (.ok (), ⟨_, h⟩) ∧
      addr ≠ "" ∧ ∀ srv ∈ cfg.servers, srv.address = addr → srv.id = id) ∨
    (∃ (h : Valid (without cfg.servers id)) (err : String),
      join R cfg id addr = (.error err, ⟨_, h⟩) ∧
      ¬ (id ≠ "" ∧ addr ≠ "" ∧ ∀ srv ∈ cfg.servers, srv.address = addr → srv.id = id)) ∨
    ∃ err, join R cfg id addr = (.error err, cfg) ∧
      ∀ srv ∈ cfg.servers, srv.suffrage = .voter → srv.id = id := by
  by_cases hv : Valid (without cfg.servers id)
  · have hgone : ∀ srv ∈ without cfg.servers id, srv.id ≠ id :=
      fun srv hsrv => (mem_without.mp hsrv).2
    have hconcat : Valid (without cfg.servers id ++ [⟨.voter, id, addr⟩]) ↔ _ :=
      valid_concat_iff hv hgone
    have hfree : (∀ srv ∈ without cfg.servers id, srv.address ≠ addr) ↔
        ∀ srv ∈ cfg.servers, srv.address = addr → srv.id = id := by
      constructor
      · intro h srv hsrv heq
        by_contra hsid
        exact h srv (mem_without.mpr ⟨hsrv, hsid⟩) heq
      · intro h srv hsrv heq
        exact hgone srv hsrv (h srv (mem_without.mp hsrv).1 heq)
    rw [hfree] at hconcat
    rw [join_eq hother hv]
    rcases @addServer_cases ⟨_, hv⟩ id R addr hgone with ⟨hval, hadd⟩ | ⟨hval, err, hadd⟩
    · exact .inl ⟨hval, hadd, (hconcat.mp hval).2⟩
    · exact .inr (.inl ⟨hv, err, hadd, fun h => hval (hconcat.mpr h)⟩)
  · obtain ⟨err, herr⟩ := join_rejected (R := R) hother hv
    refine .inr (.inr ⟨err, herr, fun srv hsrv hvote => ?_⟩)
    by_contra hsid
    exact hv ((valid_without_iff cfg.valid).mpr ⟨srv, hsrv, hvote, hsid⟩)

/-! ## A cluster of three -/

/-- A raft that says the same of every configuration that it rejects. -/
def plainRaft : Raft where
  removeServer cfg id :=
    if h : Valid (without cfg.servers id) then .ok ⟨_, h⟩ else .error "invalid configuration"
  addVoter cfg id addr :=
    if h : Valid (withVoter cfg.servers id addr) then .ok ⟨_, h⟩
    else .error "invalid configuration"
  removeServer_decided cfg id := by
    split
    · rfl
    · assumption
  addVoter_decided cfg id addr := by
    split
    · rfl
    · assumption

def threeVoters : Configuration where
  servers := [⟨.voter, "a", "a:1"⟩, ⟨.voter, "b", "b:1"⟩, ⟨.voter, "c", "c:1"⟩]
  valid := by decide

/-! ## Joining replaces -/

/-- What `Join` is for: afterwards the node is in the cluster, and no other
server has its ID or its address. -/
def Replaces (R : Raft) (cfg : Configuration) (id addr : String) : Prop :=
  ∃ cfg', join R cfg id addr = (.ok (), cfg') ∧
    cfg'.servers =
      if ∃ srv ∈ cfg.servers, srv.id = id ∧ srv.address = addr then cfg.servers
      else cfg.servers.filter (fun srv => srv.id ≠ id ∧ srv.address ≠ addr) ++
        [⟨.voter, id, addr⟩]

/-- **When `Join` replaces.** It evicts what has the joining node's ID, but
what has its address under another ID it leaves, and then it fails. -/
theorem join_replaces_iff (R : Raft) (cfg : Configuration) {id addr : String} (hid : id ≠ "")
    (haddr : addr ≠ "")
    (hvoter : ∃ srv ∈ cfg.servers, srv.suffrage = .voter ∧ srv.id ≠ id ∧ srv.address ≠ addr) :
    Replaces R cfg id addr ↔ ∀ srv ∈ cfg.servers, srv.address = addr → srv.id = id := by
  by_cases hmember : ∃ srv ∈ cfg.servers, srv.id = id ∧ srv.address = addr
  · obtain ⟨srv, hsrv, hsid, hsaddr⟩ := hmember
    refine iff_of_true ⟨cfg, join_member hsrv hsid hsaddr, ?_⟩ fun srv' hsrv' haddr' => ?_
    · rw [if_pos ⟨srv, hsrv, hsid, hsaddr⟩]
    · rw [List.inj_on_of_nodup_map cfg.valid.addresses hsrv' hsrv (haddr'.trans hsaddr.symm)]
      exact hsid
  have hother : Other id addr cfg.servers := fun srv hsrv h => hmember ⟨srv, hsrv, h.2, h.1⟩
  rw [Replaces, if_neg hmember]
  rcases join_cases R hother with ⟨hval, hjoin, -, hfree⟩ | ⟨hv, err, hjoin, hused⟩ | ⟨_, -, honly⟩
  · refine iff_of_true ⟨_, hjoin, ?_⟩ hfree
    have hfilter : without cfg.servers id =
        cfg.servers.filter fun srv => srv.id ≠ id ∧ srv.address ≠ addr := by
      refine List.filter_congr fun srv hsrv => ?_
      rw [decide_eq_decide]
      exact ⟨fun hsid => ⟨hsid, fun heq => hsid (hfree srv hsrv heq)⟩, And.left⟩
    rw [← hfilter]
  · refine iff_of_false ?_ fun hfree => hused ⟨hid, haddr, hfree⟩
    rintro ⟨cfg', hok, -⟩
    rw [hjoin] at hok
    cases hok
  · obtain ⟨voter, hmem, hvote, hne, -⟩ := hvoter
    exact absurd (honly voter hmem hvote) hne

theorem join_replaces_moved : "b" ≠ "" ∧ "b:2" ≠ "" ∧ Replaces plainRaft threeVoters "b" "b:2" :=
  ⟨by decide, by decide, (join_replaces_iff plainRaft threeVoters (by decide) (by decide)
    (by decide)).mpr (by decide)⟩

/-- A new node at the address of `c`. -/
theorem join_at_used_address :
    (join plainRaft threeVoters "d" "c:1").1 = .error "invalid configuration" ∧
      ¬ Replaces plainRaft threeVoters "d" "c:1" := by
  have herr : (join plainRaft threeVoters "d" "c:1").1 = .error "invalid configuration" := by
    decide
  refine ⟨herr, ?_⟩
  rintro ⟨cfg', hok, -⟩
  rw [hok] at herr
  cases herr

/-! ## A join that fails -/

/-- **When a failed `Join` has changed nothing.** The removal of the node's
old entry is not undone when adding the new one fails. -/
theorem join_error_unchanged_iff (R : Raft) (cfg : Configuration) (id addr : String) :
    (∀ err cfg', join R cfg id addr = (.error err, cfg') → cfg' = cfg) ↔
      (∀ srv ∈ cfg.servers, srv.id = id → srv.address = addr) ∨
      (∀ srv ∈ cfg.servers, srv.suffrage = .voter → srv.id = id) ∨
      (addr ≠ "" ∧ ∀ srv ∈ cfg.servers, srv.address = addr → srv.id = id) := by
  by_cases hmember : ∃ srv ∈ cfg.servers, srv.id = id ∧ srv.address = addr
  · obtain ⟨srv, hsrv, hsid, hsaddr⟩ := hmember
    refine iff_of_true (fun err cfg' herr => ?_) (.inl fun srv' hsrv' hid' => ?_)
    · rw [join_member hsrv hsid hsaddr] at herr
      cases herr
    · rw [List.inj_on_of_nodup_map cfg.valid.ids hsrv' hsrv (hid'.trans hsid.symm)]
      exact hsaddr
  have hother : Other id addr cfg.servers := fun srv hsrv h => hmember ⟨srv, hsrv, h.2, h.1⟩
  rcases join_cases R hother with ⟨hval, hjoin, hfree⟩ | ⟨hv, err, hjoin, hused⟩ |
    ⟨err, hjoin, honly⟩
  · refine iff_of_true (fun err cfg' herr => ?_) (.inr (.inr hfree))
    rw [hjoin] at herr
    cases herr
  · -- what is left is the old configuration if the ID was nowhere in it
    have habsent : (∀ err cfg', join R cfg id addr = (.error err, cfg') → cfg' = cfg) ↔
        ∀ srv ∈ cfg.servers, srv.id ≠ id := by
      rw [hjoin]
      constructor
      · intro h srv hsrv hsid
        have hservers := congrArg Configuration.servers (h err _ rfl)
        rw [← hservers] at hsrv
        exact (mem_without.mp hsrv).2 hsid
      · intro h err' cfg' herr
        cases herr
        obtain ⟨servers, hvalid⟩ := cfg
        simp only [without_eq_self h]
    rw [habsent]
    constructor
    · exact fun h => .inl fun srv hsrv hsid => absurd hsid (h srv hsrv)
    · rintro (h | h | h) srv hsrv hsid
      · exact hother srv hsrv ⟨h srv hsrv hsid, hsid⟩
      · obtain ⟨voter, hmem, hvote, hvid⟩ := (valid_without_iff cfg.valid).mp hv
        exact hvid (h voter hmem hvote)
      · exact hused ⟨hsid ▸ (cfg.valid.nonempty srv hsrv).1, h⟩
  · rw [hjoin]
    refine iff_of_true (fun err' cfg' h => ?_) (.inr (.inl honly))
    cases h
    rfl

/-- `b` moves to the address of `c`: it is removed and not added. -/
theorem join_error_removes_server :
    (join plainRaft threeVoters "b" "c:1").1 = .error "invalid configuration" ∧
      (join plainRaft threeVoters "b" "c:1").2.servers =
        [⟨.voter, "a", "a:1"⟩, ⟨.voter, "c", "c:1"⟩] ∧
      (join plainRaft threeVoters "b" "c:1").2 ≠ threeVoters := by
  decide

/-! ## Membership events -/

/-- `serf.Member`, with `Tags["rpc_addr"]`, which is empty when there is no
such tag. -/
structure Member where
  name : String
  rpcAddr : String
deriving DecidableEq, Repr

/-- `serf.Event`. -/
inductive Event where
  | memberJoin (members : List Member)
  | memberLeave (members : List Member)
  | memberFailed (members : List Member)
  /-- An update, a reap, a user event or a query. -/
  | other
deriving DecidableEq, Repr

/-- `Membership.handleJoin`: an error is logged. -/
def handleJoin (R : Raft) (cfg : Configuration) (m : Member) : Configuration :=
  (join R cfg m.name m.rpcAddr).2

/-- `Membership.handleLeave`. -/
def handleLeave (R : Raft) (cfg : Configuration) (m : Member) : Configuration :=
  (leave R cfg m.name).2

/-- The members of an event one after the other, the local one left out. -/
def handleMembers (handle : Configuration → Member → Configuration) (localName : String)
    (cfg : Configuration) (members : List Member) : Configuration :=
  members.foldl (fun cfg m => if m.name = localName then cfg else handle cfg m) cfg

/-- A round of `Membership.eventHandler`. -/
def eventHandler (R : Raft) (localName : String) (cfg : Configuration) : Event → Configuration
  | .memberJoin members => handleMembers (handleJoin R) localName cfg members
  | .memberLeave members | .memberFailed members =>
      handleMembers (handleLeave R) localName cfg members
  | .other => cfg

theorem join_keeps {srv : Server} (hsrv : srv ∈ cfg.servers) (hne : srv.id ≠ id) :
    srv ∈ (join R cfg id addr).2.servers := by
  have hmem : srv ∈ without cfg.servers id := mem_without.mpr ⟨hsrv, hne⟩
  by_cases hmember : ∃ srv ∈ cfg.servers, srv.id = id ∧ srv.address = addr
  · obtain ⟨node, hnode, hid, haddr⟩ := hmember
    rw [join_member hnode hid haddr]
    exact hsrv
  · have hother : Other id addr cfg.servers := fun srv hsrv h => hmember ⟨srv, hsrv, h.2, h.1⟩
    rcases join_cases R hother with ⟨_, hjoin, -⟩ | ⟨_, _, hjoin, -⟩ | ⟨_, hjoin, -⟩
    · rw [hjoin]
      exact List.mem_append_left _ hmem
    · rw [hjoin]
      exact hmem
    · rw [hjoin]
      exact hsrv

theorem leave_keeps {srv : Server} (hsrv : srv ∈ cfg.servers) (hne : srv.id ≠ id) :
    srv ∈ (leave R cfg id).2.servers := by
  have hdec := R.removeServer_decided cfg id
  unfold leave
  cases hres : R.removeServer cfg id with
  | error err => exact hsrv
  | ok cfg' =>
      rw [hres] at hdec
      rw [show cfg'.servers = without cfg.servers id from hdec]
      exact mem_without.mpr ⟨hsrv, hne⟩

theorem handleMembers_keeps {handle : Configuration → Member → Configuration}
    {localName : String} {srv : Server}
    (hkeeps : ∀ cfg m, srv ∈ cfg.servers → m.name ≠ localName → srv ∈ (handle cfg m).servers)
    {cfg : Configuration} (hsrv : srv ∈ cfg.servers) (members : List Member) :
    srv ∈ (handleMembers handle localName cfg members).servers := by
  unfold handleMembers
  induction members generalizing cfg with
  | nil => exact hsrv
  | cons m members ih =>
      refine ih ?_
      by_cases hm : m.name = localName
      · simp only [if_pos hm]
        exact hsrv
      · simp only [if_neg hm]
        exact hkeeps cfg m hsrv hm

/-- A node's own handler never takes the node itself out of the cluster. -/
theorem local_stays (R : Raft) {localName : String} {srv : Server} (hlocal : srv.id = localName)
    (events : List Event) {cfg : Configuration} (hsrv : srv ∈ cfg.servers) :
    srv ∈ (events.foldl (eventHandler R localName) cfg).servers := by
  induction events generalizing cfg with
  | nil => exact hsrv
  | cons event events ih =>
      refine ih ?_
      have hjoin : ∀ cfg m, srv ∈ cfg.servers → m.name ≠ localName →
          srv ∈ (handleJoin R cfg m).servers :=
        fun cfg m h hne => join_keeps h (hlocal ▸ hne.symm)
      have hleave : ∀ cfg m, srv ∈ cfg.servers → m.name ≠ localName →
          srv ∈ (handleLeave R cfg m).servers :=
        fun cfg m h hne => leave_keeps h (hlocal ▸ hne.symm)
      cases event with
      | memberJoin members => exact handleMembers_keeps hjoin hsrv members
      | memberLeave members => exact handleMembers_keeps hleave hsrv members
      | memberFailed members => exact handleMembers_keeps hleave hsrv members
      | other => exact hsrv

end DistributedLog.Cluster
