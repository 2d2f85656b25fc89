import PrismaBuild.LedgerAdaptive
import PrismaBuild.LedgerShrink

namespace PrismaBuild.ResourceLedger

open Prog Ledger List

/-- What is taken not to fail: renames out of a holder, looking at a directory, listing it, and
making `free/`. -/
def settled : LedgerOp → Bool
  | .rename (.held h) _ q _ => q ≠ .held h
  | .isDir _ | .scan _ => true
  | .mkdir p => p = .free
  | _ => false

def steady (o : LedgerOp) (f : Option Fault) (s : Ledger) : o.Answer × Ledger :=
  step o (if settled o then none else f) s

theorem steady_of_settled {o : LedgerOp} (h : settled o = true) (f : Option Fault) (s : Ledger) :
    steady o f s = quiet o () s := by
  rw [steady, if_pos h]
  rfl

def Comes {α : Type} (Q : α → Ledger → Prop) (p : LedgerProg α) (s : Ledger) : Prop :=
  Along steady (fun _ => True) Q p s

section

def Beside : LedgerOp → Prop
  | .create _ n | .unlink _ n => isToken n = false
  | .rename _ n _ m => isToken n = false ∧ isToken m = false
  | .rmdir _ => False
  | _ => True

variable {p : Place} {s t : Ledger} {o : LedgerOp} {α : Type}

theorem Beside.sameTokens (ho : Beside o) (f : Option Fault) (s : Ledger) :
    SameTokens s (step o f s).2 := by
  intro p n hn
  obtain he | ⟨q, m, rfl, -, he⟩ | ⟨q, m, q', m', rfl, -, he⟩ | ⟨q, m, rfl, he⟩ := step_files o f s
  · rw [he]
  · have hne : n ≠ m := fun h => by simp [h, show isToken m = false from ho] at hn
    rw [he]
    simp [hne]
  · have hne : n ≠ m := fun h => by simp [h, show isToken m = false from ho.1] at hn
    have hne' : n ≠ m' := fun h => by simp [h, show isToken m' = false from ho.2] at hn
    rw [he]
    simp [hne, hne']
  · have hne : n ≠ m := fun h => by simp [h, show isToken m = false from ho] at hn
    rw [he]
    simp [hne]

theorem Beside.dirs (ho : Beside o) (f : Option Fault) (h : p ∈ s.dirs) :
    p ∈ (step o f s).2.dirs := by
  cases f with
  | some f => cases o <;> cases f <;> exact h
  | none =>
    cases o with
    | rmdir q => exact absurd ho id
    | mkdir q => exact .tail _ h
    | create q n =>
      simp only [step]
      split_ifs <;> exact h
    | rename q n q' m =>
      simp only [step]
      split_ifs <;> exact h
    | unlink q n =>
      simp only [step]
      split_ifs <;> exact h
    | _ => exact h

theorem Issues.beside {prog : LedgerProg α} (h : Issues Beside prog) (hp : p ∈ s.dirs) :
    Comes (fun _ u => SameTokens s u ∧ p ∈ u.dirs) prog s := by
  have hs : ∀ o f t, Beside o → SameTokens s t ∧ p ∈ t.dirs → SameTokens s (steady o f t).2 ∧
    p ∈ (steady o f t).2.dirs :=
    fun o f t ho ht => ⟨ht.1.trans (ho.sameTokens _ t), ho.dirs _ ht.2⟩
  have he := (h.along hs ⟨SameTokens.refl s, hp⟩).imp fun _ _ ht _ => ht
  exact he.weaken fun _ _ => trivial

theorem Issues.leaves {prog : LedgerProg α} (h : Issues LeavesTokens prog) (s : Ledger) :
    Comes (fun _ u => SameTokens s u) prog s := by
  have hs : ∀ o f t, LeavesTokens o → SameTokens s t → SameTokens s (steady o f t).2 :=
    fun o f t ho ht => SameTokens.step ho _ ht
  have he := (h.along hs (SameTokens.refl s)).imp fun _ _ ht _ => ht
  exact he.weaken fun _ _ => trivial

theorem unlinkMissingOk_beside (p : Place) {n : Name} (hn : isToken n = false) :
    Issues Beside (unlinkMissingOk p n) := by
  refine .bind (.perform hn) fun r => ?_
  split <;> trivial

theorem writeJsonAtomic_beside (p : Place) {name : Name} (hn : isToken name = false)
    (pid nonce : Nat) :
    Issues Beside (writeJsonAtomic p name pid nonce) := by
  have ht := temporaryName_not_token hn pid nonce
  refine .andThen (.perform trivial) fun _ => .andThen (.perform ht) fun _ => ?_
  refine .bind (.perform ⟨ht, hn⟩) fun r => ?_
  cases r with
  | ok _ => trivial
  | error e => exact .andThen (unlinkMissingOk_beside p ht) fun _ => trivial

theorem heldCpus_beside (p : Place) (tiers : CpuTiers) : Issues Beside (heldCpus p tiers) :=
  .andThen (.perform trivial) fun _ => trivial

theorem writeGpu_beside (p : Place) (t : Terms) : Issues Beside (writeGpu p t) := by
  unfold writeGpu
  split
  · trivial
  · exact .andThen (.perform trivial) fun _ => writeJsonAtomic_beside p rfl _ _

theorem cpuAllocation_beside (p : Place) (recorded : Option CpuTiers) (tiers : CpuTiers) :
    Issues Beside (cpuAllocation p recorded tiers) := by
  refine .bind (.perform trivial) fun r => ?_
  split
  · trivial
  · exact .andThen (heldCpus_beside p tiers) fun _ => trivial
  · exact .andThen (heldCpus_beside p tiers) fun _ => trivial
  · trivial

theorem formCpuRecord_beside (p : Place) (a : Adaptive) (tiers : CpuTiers) (assigned : List Int) :
    Issues Beside (formCpuRecord p a tiers assigned) := by
  refine .bind ?_ fun counted => ?_
  · unfold ownTokens
    split
    · trivial
    · exact .perform trivial
  · split
    · trivial
    · trivial
    · refine .bind (heldCpus_beside p tiers) fun own => ?_
      split <;> trivial

theorem writeCpu_beside (p : Place) (t : Terms) (wanted : List (Name × Int)) :
    Issues Beside (writeCpu p t wanted) := by
  unfold writeCpu
  split
  · refine .bind (cpuAllocation_beside p _ _) fun allocation => ?_
    split
    · trivial
    · split
      · trivial
      · refine .bind (formCpuRecord_beside p _ _ _) fun formed => ?_
        split
        · refine .bind (writeJsonAtomic_beside p rfl _ _) fun written => ?_
          split <;> trivial
        · trivial
  · trivial

end

section

variable {p : Place} {s u : Ledger} {T : List Name}

structure Gathered (p : Place) (s : Ledger) (T : List Name) (u : Ledger) : Prop where
  transfer : Transfer .free p T s u
  dir : p ∈ u.dirs

theorem Gathered.same {v : Ledger} (h : Gathered p s T u) (hs : SameTokens u v ∧ p ∈ v.dirs) :
    Gathered p s T v :=
  ⟨h.transfer.then_same hs.1, hs.2⟩

theorem Gathered.take (h : Gathered p s T u) (hem : ∀ n, (p, n) ∉ s.files) {n : Name}
    (hn : isToken n = true)
    (hf : (.free, n) ∈ u.files) : Gathered p s (T ++ [n]) (quiet (.rename .free n p n) () u).2 := by
  obtain ⟨-, hmv, hd⟩ := quiet_rename hf h.dir
  obtain ⟨hs, hne⟩ : (.free, n) ∈ s.files ∧ n ∉ T := by
    rcases (h.transfer.shifted .free n hn).mp hf with ⟨he, -⟩ | ⟨hs, hno⟩
    · exact absurd he h.transfer.distinct
    · exact ⟨hs, fun hT => hno ⟨rfl, hT⟩⟩
  refine ⟨⟨h.transfer.distinct, ?_, ?_, ?_, fun m _ => hem m, fun q m hm => ?_⟩, hd ▸ h.dir⟩
  · exact nodup_append.mpr ⟨h.transfer.nodup, nodup_singleton n, fun a ha b hb hab =>
      hne (mem_singleton.mp hb ▸ hab ▸ ha)⟩
  · exact forall_mem_append.mpr ⟨h.transfer.token, fun m hm => mem_singleton.mp hm ▸ hn⟩
  · exact forall_mem_append.mpr ⟨h.transfer.present, fun m hm => mem_singleton.mp hm ▸ hs⟩
  · have hdi := h.transfer.distinct
    rw [hmv q m, h.transfer.shifted q m hm, mem_append]
    grind

theorem takeTokens_comes (he : ∀ n, (p, n) ∉ s.files) (need : Int) (names : List Name)
    (hna : ∀ n ∈ names, isToken n = true) (taken : Nat) (h : Gathered p s T u) :
    Comes (fun r v => ∃ L, (∀ n ∈ L, n ∈ names) ∧ L.length ≤ (need - taken).toNat ∧
      Gathered p s (T ++ L) v ∧
      ∀ count, r = .ok count → count = taken + L.length) (takeTokens p need names taken) u := by
  have hs : ∀ {names : List Name} {taken : Nat} {T : List Name} {u : Ledger} {r : Except Failure Nat}, Gathered p s T u →
      (∀ count, r = .ok count → count = taken) →
      ∃ L, (∀ n ∈ L, n ∈ names) ∧ L.length ≤ (need - taken).toNat ∧ Gathered p s (T ++ L) u ∧
        ∀ count, r = .ok count → count = taken + L.length :=
    fun h hr => ⟨[], by simp, Nat.zero_le _, by rwa [append_nil], hr⟩
  induction names generalizing taken T u with
  | nil => exact ⟨trivial, hs h fun count hc => (Except.ok.inj hc).symm⟩
  | cons token names ih =>
    obtain ⟨ht, hre⟩ := forall_mem_cons.mp hna
    unfold takeTokens
    split
    next => exact ⟨trivial, hs h fun count hc => (Except.ok.inj hc).symm⟩
    next hmo =>
      refine .perform trivial fun f => ?_
      have hst : steady (.rename .free token p token) f u = step (.rename .free token p token) f
        u := rfl
      rw [hst]
      cases f with
      | some e => exact ⟨trivial, hs h (by simp)⟩
      | none =>
        by_cases hf : (.free, token) ∈ u.files
        · have hg := h.take he ht hf
          have hok := (quiet_rename hf h.dir).1
          have hm : step (.rename .free token p token) none u =
            (.ok (), (quiet (.rename .free token p token) () u).2) :=
            Prod.ext hok rfl
          rw [hm]
          refine (ih hre (taken + 1) hg).imp ?_
          rintro r v - ⟨L, hL, hl, hv, hco⟩
          refine ⟨token :: L, ?_, ?_, ?_, fun count hc => ?_⟩
          · exact forall_mem_cons.mpr ⟨.head _, fun n hn => .tail _ (hL n hn)⟩
          · rw [length_cons]
            omega
          · rwa [append_cons]
          · rw [hco count hc, length_cons]
            omega
        · have hgo : step (.rename .free token p token) none u = (.error .noent, u) :=
            quiet_rename_missing hf
          rw [hgo]
          refine (ih hre taken h).imp ?_
          rintro r v - ⟨L, hL, hv⟩
          exact ⟨L, fun n hn => .tail _ (hL n hn), hv⟩

theorem freeTokens_comes (t : Terms) (kind : Name) (u : Ledger) :
    Comes (fun r v => v = u ∧ ∀ tokens, r = .ok tokens → ∀ n ∈ tokens, ofKind kind n = true)
    (freeTokens t kind) u := by
  have hg : ∀ {α : Type} {Q : Except Failure α → Ledger → Prop} {k : List Name → LedgerProg (Except Failure α)},
      (∀ e, Q (.error e) u) → (∀ listing, Comes Q (k listing) u) →
      Comes Q ((matchOptional .free).andThen k) u := by
    intro α Q k her hok
    refine .andThen ⟨trivial, fun f => ⟨trivial, ?_⟩⟩
    rcases f with _ | _ | _
    · exact hok _
    · exact hok _
    · exact her _
  unfold freeTokens
  split
  next hc =>
    refine hg (fun e => ⟨rfl, nofun⟩) fun listing => ?_
    have hl : ∀ n ∈ listing.filter (ofKind cpuKind), ofKind kind n = true :=
      fun n hn => hc ▸ (mem_filter.mp hn).2
    split
    next => exact ⟨trivial, rfl, fun tokens hok => Except.ok.inj hok ▸ hl⟩
    next => exact ⟨trivial, rfl, nofun⟩
    next _ _ allowed tiers _ _ =>
      refine ⟨trivial, rfl, fun tokens hok n hn => ?_⟩
      cases hi : cpuIds tiers (listing.filter (ofKind cpuKind)) with
      | error e => simp [hi, Except.map] at hok
      | ok cpus =>
        rw [hi] at hok
        rw [← Except.ok.inj hok] at hn
        obtain ⟨e, he, rfl⟩ := mem_map.mp hn
        exact hl _ (of_mem_zip (mem_of_mem_filter he)).1
  next =>
    refine hg (fun e => ⟨rfl, nofun⟩) fun listing => ⟨trivial, rfl, fun tokens hok n hn => ?_⟩
    rw [← Except.ok.inj hok] at hn
    exact (mem_filter.mp hn).2

def Served (t : Terms) : List (Name × Int) → List (List Name) → Prop :=
  List.Forall₂ fun d L => (∀ n ∈ L, ofKind d.1 n = true) ∧ L.length ≤ (t.need d.1 d.2).toNat

def Complete (t : Terms) : List (Name × Int) → List (List Name) → Prop :=
  List.Forall₂ fun d L => t.mayFallShort d.1 = false → t.need d.1 d.2 ≤ L.length

theorem takeWanted_comes (he : ∀ n, (p, n) ∉ s.files) (t : Terms) (wanted : List (Name × Int))
    (h : Gathered p s T u) :
    Comes (fun r v => ∃ L, Gathered p s (T ++ L) v ∧
      (r = .complete → ∃ parts, L = parts.flatten ∧ Served t wanted parts ∧
      Complete t wanted parts)) (takeWanted p t wanted) u := by
  induction wanted generalizing T u with
  | nil => exact ⟨trivial, [], by rwa [append_nil], fun _ => ⟨[], rfl, .nil, .nil⟩⟩
  | cons d wanted ih =>
    obtain ⟨kind, want⟩ := d
    refine .bind ((freeTokens_comes t kind u).imp ?_)
    rintro r v - ⟨rfl, ht⟩
    cases r with
    | error e => exact ⟨trivial, [], by rwa [append_nil], nofun⟩
    | ok tokens =>
      have hk := ht tokens rfl
      have hl := takeTokens_comes he (t.need kind want) tokens
        (fun n hn => isToken_of_ofKind (hk n hn)) 0 h
      refine .bind (hl.imp ?_)
      rintro r w - ⟨L, hL, hle, hw, hco⟩
      cases r with
      | error e => exact ⟨trivial, L, hw, nofun⟩
      | ok taken =>
        have hta := hco taken rfl
        dsimp only
        split
        next => exact ⟨trivial, L, hw, nofun⟩
        next hf =>
          refine (ih hw).imp ?_
          rintro r x - ⟨L', hx, hp⟩
          refine ⟨L ++ L', by rwa [← append_assoc], fun hr => ?_⟩
          obtain ⟨parts, rfl, hs, hc⟩ := hp hr
          refine ⟨L :: parts, rfl, .cons ⟨fun n hn => hk n (hL n hn), ?_⟩ hs,
            .cons (fun hsh => ?_) hc⟩
          · dsimp only
            omega
          · dsimp only
            by_contra hless
            refine hf ⟨?_, by simp [hsh]⟩
            omega

theorem takeAll_comes (he : ∀ n, (p, n) ∉ s.files) (t : Terms) (wanted : List (Name × Int))
    (h : Gathered p s [] u) :
    Comes (fun r v => ∃ L, Gathered p s L v ∧
      (r = .complete → ∃ parts, L = parts.flatten ∧ Served t wanted parts ∧
      Complete t wanted parts)) (takeAll p t wanted) u := by
  refine .bind ((takeWanted_comes he t wanted h).imp ?_)
  rintro r v - ⟨L, hv, hp⟩
  cases r with
  | short => exact ⟨trivial, L, hv, nofun⟩
  | raised e => exact ⟨trivial, L, hv, nofun⟩
  | complete =>
    refine .bind ((Issues.beside (writeGpu_beside p t) hv.dir).imp ?_)
    rintro r w - hw
    cases r with
    | error e => exact ⟨trivial, L, hv.same hw, nofun⟩
    | ok _ =>
      refine (Issues.beside (writeCpu_beside p t wanted) hw.2).imp ?_
      rintro r x - hx
      exact ⟨L, (hv.same hw).same hx, fun _ => hp rfl⟩

end

section

variable {s u : Ledger} {T : List Name} {handle : Name}

theorem returnTokens_settled (pick : Name → Bool) (want : Option Int) (tokens : List Name)
    (released : Nat) (incomplete : Bool) :
    Issues (fun o => settled o = true)
      (returnTokens (.held handle) pick want tokens released incomplete) := by
  induction tokens generalizing released incomplete with
  | nil => trivial
  | cons token tokens ih =>
    unfold returnTokens
    split
    · trivial
    · split
      · exact ih _ _
      · refine .bind (.perform rfl) fun r => ?_
        cases r with
        | error e => exact ih _ _
        | ok _ => exact ih _ _

theorem scanOptional_comes {p : Place} (hd : p ∈ u.dirs) :
    Comes (fun r v => r = .ok (u.names p) ∧ v = u) (scanOptional p) u := by
  refine .perform trivial fun f => ?_
  have hl : steady (.scan p) f u = (.ok (u.names p), u) := by
    rw [steady_of_settled rfl]
    exact Prod.ext (if_pos hd) rfl
  rw [hl]
  exact ⟨trivial, rfl, rfl⟩

theorem emptyIntoFree_comes (hdi : .held handle ∈ u.dirs) :
    Comes (fun _ v => Shifted (.held handle) .free ((u.names (.held handle)).filter fun n =>
    !isMetadata n) u v)
      (emptyIntoFree (.held handle)) u := by
  refine .perform trivial fun f => ?_
  have hi : steady (.isDir (.held handle)) f u = (true, u) := by
    rw [steady_of_settled rfl]
    exact Prod.ext (decide_eq_true hdi) rfl
  rw [hi]
  refine .perform trivial fun f => ?_
  have hm : steady (.mkdir .free) f u = (.ok (), u.withDir .free) := steady_of_settled rfl f u
  rw [hm]
  refine .andThen ((scanOptional_comes (mem_cons_of_mem _ hdi)).imp ?_)
  rintro r v - ⟨rfl, rfl⟩
  have hl := returnTokens_ends (p := .held handle) nofun (fun _ => true) none
    (u.names (.held handle)) (names_nodup u _) 0
    false (u.withDir .free) mem_cons_self fun n hn => mem_names.mp hn
  have hre : Comes _ _ _ := .replay (fun o f s ho => ⟨(), steady_of_settled ho f s⟩)
    (returnTokens_settled (fun _ => true) none (u.names (.held handle)) 0 false) hl
  refine .bind (hre.imp ?_)
  rintro ⟨released, incomplete⟩ v - ⟨hr, hmv, hd⟩
  simp only [Bool.and_true, chosen, Nat.zero_add, Prod.mk.injEq] at hr hmv
  obtain ⟨rfl, rfl⟩ := hr
  have hres : Issues LeavesTokens ((unlinkMetadata (.held handle)
    ((u.names (.held handle)).filter isMetadata)).andThen fun _ =>
      rmdir (.held handle) >>= fun _ => pure
        (.ok ((u.names (.held handle)).filter fun n => !isMetadata n).length)) := by
    refine .andThen (unlinkMetadata_leaves _ _ fun n hn => (mem_filter.mp hn).2) fun _ => ?_
    exact .bind (.perform trivial) fun _ => trivial
  refine (Issues.leaves hres v).imp fun _ w _ hw => (Moved.shifted hmv).then_same hw

theorem Gathered.rollback (he : ∀ n, (.held handle, n) ∉ s.files)
    (h : Gathered (.held handle) s T u) :
    Comes (fun _ v => SameTokens s v) (emptyIntoFree (.held handle)) u := by
  refine (emptyIntoFree_comes h.dir).imp fun _ v _ hb => ?_
  refine h.transfer.back hb fun n hn => ?_
  have hin : (.held handle, n) ∈ u.files ↔ n ∈ T := by
    rw [h.transfer.shifted _ n hn]
    simp [he n]
  rw [mem_filter, mem_names, hin, isMetadata_of_isToken hn]
  simp

theorem beginAcquireOn_comes (he : ∀ n, (.held handle, n) ∉ s.files) (demand : List (Name × Int))
    (t : Terms) :
    Comes (fun r v => (∀ h, r ≠ .ok (some h)) ∧ SameTokens s v ∨
      r = .ok (some handle) ∧ ∃ parts, Transfer .free (.held handle) parts.flatten s v ∧
        Served t (sortedItems (demand.filter fun d => d.2 > 0)) parts ∧
        Complete t (sortedItems (demand.filter fun d => d.2 > 0)) parts)
        (beginAcquireOn handle demand t) s := by
  have hne : Place.free ≠ .held handle := nofun
  unfold beginAcquireOn
  dsimp only
  split
  · exact ⟨trivial, .inl ⟨nofun, SameTokens.refl s⟩⟩
  · split
    next hn =>
      have hni : sortedItems (demand.filter fun d => d.2 > 0) = [] := by
        rw [Bool.and_eq_true] at hn
        exact List.isEmpty_iff.mp hn.1
      rw [hni]
      exact ⟨trivial, .inr ⟨rfl, [], Transfer.nil hne s, .nil, .nil⟩⟩
    next =>
      refine .andThen ⟨trivial, fun f => ⟨trivial, ?_⟩⟩
      cases f with
      | some e => exact .inl ⟨nofun, SameTokens.refl s⟩
      | none =>
        have hst : Gathered (.held handle) s [] (s.withDir (.held handle)) :=
          ⟨(Transfer.nil hne s).then_same fun _ _ _ => Iff.rfl, mem_cons_self⟩
        refine .bind ((takeAll_comes he t _ hst).imp ?_)
        rintro r v - ⟨L, hv, hp⟩
        cases r with
        | complete =>
          obtain ⟨parts, rfl, hs, hc⟩ := hp rfl
          exact ⟨trivial, .inr ⟨rfl, parts, hv.transfer, hs, hc⟩⟩
        | short =>
          refine .andThen ((hv.rollback he).imp fun r w _ hw => ?_)
          cases r with
          | ok _ => exact ⟨trivial, .inl ⟨nofun, hw⟩⟩
          | error e => exact .inl ⟨nofun, hw⟩
        | raised e =>
          refine .andThen ((hv.rollback he).imp fun r w _ hw => ?_)
          cases r with
          | ok _ => exact ⟨trivial, .inl ⟨nofun, hw⟩⟩
          | error e => exact .inl ⟨nofun, hw⟩

end

end PrismaBuild.ResourceLedger
