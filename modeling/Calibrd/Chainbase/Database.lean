import Calibrd.Chainbase.Table

/-!
# `chainbase::database`

A database is a family of indices, one for each table of a schema; sessions act on every index. The
programs that run over it read the tables, create, modify and remove objects, and may throw
(`Prog`). A program has two meanings: on the indices with their undo stacks (`Prog.exec`), where a
throw leaves the changes made so far for the session to undo, and on the plain contents of the
tables (`Prog.run`). The first refines the second with a stack of snapshots around it
(`Refinement.exec`), so what a program does to the tables does not depend on the undo stacks.
-/

namespace Calibrd.Chainbase

open Calibrd.Lib

/-- The tables of a database, in the order in which they were added. -/
structure Schema where
  T : Type
  dec : DecidableEq T
  Row : T → Type
  keys : ∀ t, List (UniqueKey (Row t))
  index_list : List T
  complete : ∀ t, t ∈ index_list
  nodup : index_list.Nodup

instance (S : Schema) : DecidableEq S.T := S.dec

/-- The rows of all tables: what a program can read. -/
abbrev View (S : Schema) := ∀ t, OrdMap ℕ (S.Row t)

/-- The contents of all tables. -/
abbrev Contents (S : Schema) := ∀ t, Table (S.keys t)

abbrev Database (S : Schema) := ∀ t, GenericIndex (S.Row t)

variable {S : Schema}

def Contents.view (c : Contents S) : View S := fun t => (c t).rows

namespace Database

variable (db : Database S)

def view : View S := fun t => (db t).indices

def start_undo_session : Database S := fun t => (db t).start_undo_session

def squash : Database S := fun t => (db t).squash

def commit (revision : ℤ) : Database S := fun t => (db t).commit revision

/-- A loop over the indices; the first exception ends it. -/
def eachIndex (op : ∀ t, GenericIndex (S.Row t) → Except IndexError (GenericIndex (S.Row t))) :
    List S.T → Database S → Except IndexError (Database S)
  | [], db => .ok db
  | t :: ts, db =>
    match op t (db t) with
    | .error e => .error e
    | .ok g => eachIndex op ts (Function.update db t g)

def undo (db : Database S) : Except IndexError (Database S) :=
  eachIndex (fun t => GenericIndex.undo (S.keys t)) S.index_list db

def undo_all (db : Database S) : Except IndexError (Database S) :=
  eachIndex (fun t => GenericIndex.undo_all (S.keys t)) S.index_list db

/-- The revision of the first index. -/
def revision : ℤ :=
  match S.index_list with
  | [] => -1
  | t :: _ => (db t).revision

def set_revision (db : Database S) (revision : ℤ) : Except IndexError (Database S) :=
  eachIndex (fun _ g => g.set_revision revision) S.index_list db

/-- Every index goes through the loop once. -/
theorem eachIndex_eq {op : ∀ t, GenericIndex (S.Row t) → Except IndexError (GenericIndex (S.Row t))}
    {db db' : Database S} (h : ∀ t, op t (db t) = .ok (db' t)) :
    eachIndex op S.index_list db = .ok db' := by
  -- the tables that were passed hold the new index, the others the old one
  have loop : ∀ ts : List S.T, ts.Nodup → ∀ d : Database S, (∀ t ∈ ts, d t = db t) →
      (∀ t, t ∉ ts → d t = db' t) → eachIndex op ts d = .ok db' := by
    intro ts
    induction ts with
    | nil =>
      intro _ d _ hdone
      exact congrArg Except.ok (funext fun t => hdone t List.not_mem_nil)
    | cons t ts ih =>
      intro hnd d htodo hdone
      rcases List.nodup_cons.1 hnd with ⟨ht, hts⟩
      simp only [eachIndex, htodo t List.mem_cons_self, h t]
      refine ih hts _ ?_ ?_
      · intro t' ht'
        have hne : t' ≠ t := fun e => ht (e ▸ ht')
        rw [Function.update_of_ne hne]
        exact htodo t' (List.mem_cons_of_mem _ ht')
      · intro t' ht'
        by_cases hne : t' = t
        · subst hne
          exact Function.update_self ..
        · rw [Function.update_of_ne hne]
          exact hdone t' fun hmem => (List.mem_cons.1 hmem).elim hne ht'
  exact loop S.index_list S.nodup db (fun _ _ => rfl) fun t ht => absurd (S.complete t) ht

end Database

/-! ## Programs -/

/-- An exception of the container, or one that the program throws itself. -/
inductive Failure (E : Type) where
  | index (e : IndexError)
  | thrown (e : E)
deriving DecidableEq, Repr

/-- A program over the tables. A modifier leaves the unique keys of its object alone: no evaluator
changes a name, an owner or another key of an object after it was created. -/
inductive Prog (S : Schema) (E α : Type) where
  | pure (a : α)
  | throw (e : E)
  | read (k : View S → Prog S E α)
  | create (t : S.T) (v : S.Row t) (k : ℕ → Prog S E α)
  | modify (t : S.T) (i : ℕ) (f : S.Row t → S.Row t) (hf : KeepsKeys (S.keys t) f)
      (k : Prog S E α)
  | remove (t : S.T) (i : ℕ) (k : Prog S E α)

namespace Prog

variable {E α β : Type}

def bind (p : Prog S E α) (f : α → Prog S E β) : Prog S E β :=
  match p with
  | .pure a => f a
  | .throw e => .throw e
  | .read k => .read fun v => (k v).bind f
  | .create t v k => .create t v fun i => (k i).bind f
  | .modify t i g hg k => .modify t i g hg (k.bind f)
  | .remove t i k => .remove t i (k.bind f)

instance : Monad (Prog S E) where
  pure := .pure
  bind := bind

/-- The meaning of a program on the indices. -/
def exec : Prog S E α → Database S → Except (Failure E) α × Database S
  | .pure a, db => (.ok a, db)
  | .throw e, db => (.error (.thrown e), db)
  | .read k, db => exec (k db.view) db
  | .create t v k, db =>
    match (db t).emplace (S.keys t) v with
    | .error e => (.error (.index e), db)
    | .ok g => exec (k (db t).next_id) (Function.update db t g)
  | .modify t i f _ k, db =>
    match (db t).modify (S.keys t) i f with
    | .error e => (.error (.index e), db)
    | .ok g => exec k (Function.update db t g)
  | .remove t i k, db =>
    match (db t).remove i with
    | .error e => (.error (.index e), db)
    | .ok g => exec k (Function.update db t g)

/-- The meaning of a program on the contents. -/
def run : Prog S E α → Contents S → Except (Failure E) α × Contents S
  | .pure a, c => (.ok a, c)
  | .throw e, c => (.error (.thrown e), c)
  | .read k, c => run (k c.view) c
  | .create t v k, c =>
    match (c t).create v with
    | none => (.error (.index .insert_failed), c)
    | some T => run (k (c t).next_id) (Function.update c t T)
  | .modify t i f hf k, c =>
    match (c t).modify i f hf with
    | none => (.error (.index .end_iterator), c)
    | some T => run k (Function.update c t T)
  | .remove t i k, c =>
    match (c t).remove i with
    | none => (.error (.index .end_iterator), c)
    | some T => run k (Function.update c t T)

/-- A sequence of programs runs the second one where the first one ended. -/
theorem bind_assoc {γ : Type} (p : Prog S E α) (f : α → Prog S E β) (g : β → Prog S E γ) :
    (p.bind f).bind g = p.bind fun a => (f a).bind g := by
  induction p with
  | pure a => rfl
  | throw e => rfl
  | read k ih => exact congrArg Prog.read (funext ih)
  | create t v k ih => exact congrArg (Prog.create t v) (funext ih)
  | modify t i h hh k ih => exact congrArg (Prog.modify t i h hh) ih
  | remove t i k ih => exact congrArg (Prog.remove t i) ih

theorem run_bind (p : Prog S E α) (f : α → Prog S E β) (c : Contents S) :
    run (p.bind f) c =
      match run p c with
      | (.ok a, c') => run (f a) c'
      | (.error e, c') => (.error e, c') := by
  induction p generalizing c with
  | pure a => rfl
  | throw e => rfl
  | read k ih => exact ih _ c
  | create t v k ih =>
    simp only [bind, run]
    cases (c t).create v with
    | none => rfl
    | some T => exact ih _ _
  | modify t i g hg k ih =>
    simp only [bind, run]
    cases (c t).modify i g hg with
    | none => rfl
    | some T => exact ih _
  | remove t i k ih =>
    simp only [bind, run]
    cases (c t).remove i with
    | none => rfl
    | some T => exact ih _

variable {p : Prog S E α}

theorem run_bind_ok {f : α → Prog S E β} {c c' : Contents S} {b : β} :
    run (p.bind f) c = (.ok b, c') ↔
      ∃ a c1, run p c = (.ok a, c1) ∧ run (f a) c1 = (.ok b, c') := by
  rw [run_bind]
  cases run p c with
  | mk r c1 =>
    cases r with
    | ok a =>
      constructor
      · exact fun h => ⟨a, c1, rfl, h⟩
      · rintro ⟨a', c2, heq, h⟩
        cases heq
        exact h
    | error e => simp

/-- The program moves the contents along `Q`, whether it returns or throws. -/
def Moves (Q : Contents S → Contents S → Prop) (p : Prog S E α) : Prop := ∀ c, Q c (run p c).2

namespace Moves

variable {Q : Contents S → Contents S → Prop}

theorem bind (htrans : ∀ a b c, Q a b → Q b c → Q a c) {f : α → Prog S E β} (hp : Moves Q p)
    (hf : ∀ a, Moves Q (f a)) : Moves Q (p.bind f) := by
  intro c
  have h := hp c
  rw [run_bind]
  cases hrun : run p c with
  | mk r c1 =>
    rw [hrun] at h
    cases r with
    | ok a => exact htrans _ _ _ h (hf a c1)
    | error e => exact h

theorem of_ok (h : Moves Q p) {c c' : Contents S} {a : α} (hrun : run p c = (.ok a, c')) :
    Q c c' := by
  have hc := h c
  rw [hrun] at hc
  exact hc

end Moves

end Prog

/-! ## Refinement -/

/-- Every index of the database looks like its table in the stack of snapshots. -/
def Refinement (db : Database S) (s : SnapshotStack (Contents S)) : Prop :=
  ∀ t, Refines (db t) (s.map fun c => c t)

namespace Refinement

variable {db : Database S} {s : SnapshotStack (Contents S)}

section

variable (h : Refinement db s)

include h

theorem view_eq : db.view = s.cur.view :=
  funext fun t => (h t).rows

theorem start : Refinement db.start_undo_session s.start :=
  fun t => (h t).start

theorem squash : Refinement db.squash s.squash := by
  intro t
  rw [SnapshotStack.map_squash]
  exact (h t).squash

theorem commit (r : ℤ) : Refinement (db.commit r) (s.commit r) := by
  intro t
  rw [SnapshotStack.map_commit]
  exact (h t).commit r

theorem undo : ∃ db', db.undo = .ok db' ∧ Refinement db' s.undo := by
  choose db' hdb' href using fun t => (h t).undo
  refine ⟨db', Database.eachIndex_eq hdb', ?_⟩
  intro t
  rw [SnapshotStack.map_undo]
  exact href t

theorem undo_all :
    ∃ db', db.undo_all = .ok db' ∧ Refinement db' s.undoAll := by
  choose db' hdb' href using fun t => (h t).undo_all
  refine ⟨db', Database.eachIndex_eq hdb', ?_⟩
  intro t
  rw [SnapshotStack.map_undoAll]
  exact href t

end

theorem set_revision {c : Contents S} {r : ℤ} (h : Refinement db ⟨c, [], r⟩) (r' : ℤ) :
    ∃ db', db.set_revision r' = .ok db' ∧ Refinement db' ⟨c, [], r'⟩ := by
  refine ⟨fun t => { db t with revision := r' }, Database.eachIndex_eq fun t => ?_, fun t => ?_⟩
  · have hstack : (db t).stack = [] := List.length_eq_zero_iff.1 (h t).layers.length_eq
    simp only [GenericIndex.set_revision, hstack]
  · exact ⟨(h t).rows, (h t).next_id, rfl, (h t).layers⟩

theorem update (h : Refinement db s) {t : S.T} {g : GenericIndex (S.Row t)} {T : Table (S.keys t)}
    (hg : Refines g ((s.map fun c => c t).setCur T)) :
    Refinement (Function.update db t g) (s.setCur (Function.update s.cur t T)) := by
  intro t'
  by_cases he : t' = t
  · subst he
    have hcur : (s.setCur (Function.update s.cur t' T)).map (fun c => c t') =
        (s.map fun c => c t').setCur T := by
      simp [SnapshotStack.map, SnapshotStack.setCur]
    rw [hcur, Function.update_self]
    exact hg
  · have hcur : (s.setCur (Function.update s.cur t T)).map (fun c => c t') =
        s.map fun c => c t' := by
      simp [SnapshotStack.map, SnapshotStack.setCur, Function.update_of_ne he]
    rw [hcur, Function.update_of_ne he]
    exact h t'

/-- A program does to the indices what it does to the contents, in the session that is open. -/
theorem exec {E α : Type} (p : Prog S E α) (h : Refinement db s) :
    (p.exec db).1 = (p.run s.cur).1 ∧ Refinement (p.exec db).2 (s.setCur (p.run s.cur).2) := by
  induction p generalizing db s with
  | pure a => exact ⟨rfl, h⟩
  | throw e => exact ⟨rfl, h⟩
  | read k ih =>
    simp only [Prog.exec, Prog.run, h.view_eq]
    exact ih s.cur.view h
  | create t v k ih =>
    simp only [Prog.exec, Prog.run]
    have hnext : (db t).next_id = (s.cur t).next_id := (h t).next_id
    cases hc : (s.cur t).create v with
    | none =>
      rw [(h t).create_fails hc]
      exact ⟨rfl, h⟩
    | some T =>
      obtain ⟨g, hg, href⟩ := (h t).create hc
      rw [hg, hnext]
      exact ih _ (h.update href)
  | modify t i f hf k ih =>
    simp only [Prog.exec, Prog.run]
    cases hc : (s.cur t).modify i f hf with
    | none =>
      rw [(h t).modify_fails hc]
      exact ⟨rfl, h⟩
    | some T =>
      obtain ⟨g, hg, href⟩ := (h t).modify hc
      rw [hg]
      exact ih (h.update href)
  | remove t i k ih =>
    simp only [Prog.exec, Prog.run]
    cases hc : (s.cur t).remove i with
    | none =>
      rw [(h t).remove_fails hc]
      exact ⟨rfl, h⟩
    | some T =>
      obtain ⟨g, hg, href⟩ := (h t).remove hc
      rw [hg]
      exact ih (h.update href)

end Refinement

/-! ## A schema with one more table

A program over the tables of `S` is a program over these tables and one more (`Prog.lift`). It
leaves the added table alone and does not depend on it: `run_lift` says both in one equation.
-/

variable {S : Schema} {V : Type} {ks : List (UniqueKey V)}

def Schema.extendRow (S : Schema) (V : Type) : Option S.T → Type
  | none => V
  | some t => S.Row t

def Schema.extendKeys (S : Schema) {V : Type} (ks : List (UniqueKey V)) :
    ∀ t, List (UniqueKey (S.extendRow V t))
  | none => ks
  | some t => S.keys t

/-- The tables of `S` and one with rows in `V`. -/
abbrev Schema.extend (S : Schema) {V : Type} (ks : List (UniqueKey V)) : Schema where
  T := Option S.T
  dec := inferInstance
  Row := S.extendRow V
  keys := S.extendKeys ks
  index_list := none :: S.index_list.map some
  complete t := by
    cases t with
    | none => exact List.mem_cons_self
    | some t => exact List.mem_cons_of_mem _ (List.mem_map_of_mem (S.complete t))
  nodup := by
    refine List.nodup_cons.2 ⟨?_, List.Nodup.map (Option.some_injective _) S.nodup⟩
    intro h
    obtain ⟨t, -, ht⟩ := List.mem_map.1 h
    cases ht

def View.base (v : View (S.extend ks)) : View S := fun t => v (some t)

def View.added (v : View (S.extend ks)) : OrdMap ℕ V := v none

namespace Contents

/-- The contents of the tables of `S`, with `T` in the added one. -/
def extend (c : Contents S) (T : Table ks) : Contents (S.extend ks)
  | none => T
  | some t => c t

def base (c : Contents (S.extend ks)) : Contents S := fun t => c (some t)

def added (c : Contents (S.extend ks)) : Table ks := c none

variable (c : Contents S)

@[simp] theorem base_extend (T : Table ks) : (c.extend T).base = c := rfl

@[simp] theorem added_extend (T : Table ks) : (c.extend T).added = T := rfl

@[simp] theorem extend_base_added (c : Contents (S.extend ks)) : c.base.extend c.added = c := by
  funext t
  cases t <;> rfl

@[simp] theorem view_extend_base (T : Table ks) :
    View.base (c.extend T).view = c.view := rfl

@[simp] theorem view_extend_added (T : Table ks) :
    View.added (c.extend T).view = T.rows := rfl

theorem update_base (T : Table ks) (t : S.T) (T' : Table (S.keys t)) :
    (Function.update (c.extend T) (some t) T' : Contents (S.extend ks)) =
      Contents.extend (Function.update c t T') T := by
  funext t'
  cases t' with
  | none => exact Function.update_of_ne (by simp) _ _
  | some t' =>
    by_cases he : t' = t
    · subst he
      have hbase : Function.update c t' T' t' = T' := Function.update_self ..
      exact (Function.update_self ..).trans hbase.symm
    · have hne : some t' ≠ some t := fun h => he (Option.some.inj h)
      exact (Function.update_of_ne hne _ _).trans (Function.update_of_ne he _ _).symm

theorem update_added (T T' : Table ks) :
    (Function.update (c.extend T) none T' : Contents (S.extend ks)) = c.extend T' := by
  funext t
  cases t with
  | none => exact Function.update_self ..
  | some t => exact Function.update_of_ne (by simp) _ _

end Contents

namespace Prog

variable {E α : Type}

/-- A program over the tables of `S`, next to one more table. -/
def lift (ks : List (UniqueKey V)) : Prog S E α → Prog (S.extend ks) E α
  | .pure a => .pure a
  | .throw e => .throw e
  | .read k => .read fun v => (k (View.base v)).lift ks
  | .create t v k => .create (some t) v fun i => (k i).lift ks
  | .modify t i f hf k => .modify (some t) i f hf (k.lift ks)
  | .remove t i k => .remove (some t) i (k.lift ks)

/-- The added table stays as it is, and what is in it makes no difference. -/
theorem run_lift (p : Prog S E α) (c : Contents S) (T : Table ks) :
    (p.lift ks).run (c.extend T) = ((p.run c).1, (p.run c).2.extend T) := by
  induction p generalizing c with
  | pure a => rfl
  | throw e => rfl
  | read k ih => exact ih c.view c
  | create t v k ih =>
    have hnone : ((c.extend T) (some t)).create v = (c t).create v := rfl
    simp only [lift, run, hnone]
    cases (c t).create v with
    | none => rfl
    | some T' =>
      exact (congrArg _ (Contents.update_base c T t T')).trans (ih _ _)
  | modify t i f hf k ih =>
    have hsome : ((c.extend T) (some t)).modify i f hf = (c t).modify i f hf := rfl
    simp only [lift, run, hsome]
    cases (c t).modify i f hf with
    | none => rfl
    | some T' =>
      exact (congrArg _ (Contents.update_base c T t T')).trans (ih _)
  | remove t i k ih =>
    have hsome : ((c.extend T) (some t)).remove i = (c t).remove i := rfl
    simp only [lift, run, hsome]
    cases (c t).remove i with
    | none => rfl
    | some T' =>
      exact (congrArg _ (Contents.update_base c T t T')).trans (ih _)

theorem run_lift_eq (p : Prog S E α) (c : Contents (S.extend ks)) :
    (p.lift ks).run c = ((p.run c.base).1, (p.run c.base).2.extend c.added) := by
  have h := run_lift p c.base c.added
  rwa [Contents.extend_base_added] at h

theorem run_lift_ok {p : Prog S E α} {c c' : Contents (S.extend ks)} {a : α} :
    (p.lift ks).run c = (.ok a, c') ↔ p.run c.base = (.ok a, c'.base) ∧ c'.added = c.added := by
  rw [run_lift_eq]
  constructor
  · intro h
    obtain ⟨hres, rfl⟩ := Prod.mk.inj h
    exact ⟨Prod.ext hres rfl, rfl⟩
  · rintro ⟨h, hadded⟩
    rw [h, ← hadded, Contents.extend_base_added]

/-! ## Programs that differ on the added table -/

/-- Where `p` succeeds `p'` succeeds as well, and does the same to the tables of `S`. The added
tables are related by `R` before and by `R'` after. -/
def Follows (R R' : Table ks → Table ks → Prop) (p p' : Prog (S.extend ks) E α) : Prop :=
  ∀ ⦃c : Contents S⦄ ⦃T T' : Table ks⦄ ⦃a : α⦄ ⦃c1 : Contents S⦄ ⦃T1 : Table ks⦄, R T T' →
    p.run (c.extend T) = (.ok a, c1.extend T1) →
    ∃ T1', p'.run (c.extend T') = (.ok a, c1.extend T1') ∧ R' T1 T1'

namespace Follows

variable {β : Type} {R R1 R2 : Table ks → Table ks → Prop}

theorem lift (R : Table ks → Table ks → Prop) (p : Prog S E α) :
    Follows R R (p.lift ks) (p.lift ks) := by
  intro c T T' a c1 T1 hR hrun
  rw [run_lift] at hrun
  have hbase := congrArg Contents.base (Prod.mk.inj hrun).2
  have hadded := congrArg Contents.added (Prod.mk.inj hrun).2
  refine ⟨T', ?_, ?_⟩
  · rw [run_lift, (Prod.mk.inj hrun).1]
    exact congrArg (fun c => (Except.ok a, Contents.extend c T')) hbase
  · exact (show T = T1 from hadded) ▸ hR

theorem bind {p p' : Prog (S.extend ks) E α} {f f' : α → Prog (S.extend ks) E β}
    (hp : Follows R R1 p p') (hf : ∀ a, Follows R1 R2 (f a) (f' a)) :
    Follows R R2 (p.bind f) (p'.bind f') := by
  intro c T T' b c2 T2 hR hrun
  obtain ⟨a, d, hrun1, hrun2⟩ := run_bind_ok.1 hrun
  rw [← Contents.extend_base_added d] at hrun1 hrun2
  obtain ⟨T1', hrun1', hR1⟩ := hp hR hrun1
  obtain ⟨T2', hrun2', hR2⟩ := hf a hR1 hrun2
  exact ⟨T2', run_bind_ok.2 ⟨a, _, hrun1', hrun2'⟩, hR2⟩

theorem mono {R' R1' : Table ks → Table ks → Prop} {p p' : Prog (S.extend ks) E α}
    (h : Follows R R1 p p') (hpre : ∀ T T', R' T T' → R T T') (hpost : ∀ T T', R1 T T' → R1' T T') :
    Follows R' R1' p p' := by
  intro c T T' a c1 T1 hR hrun
  obtain ⟨T1', hrun', hR1⟩ := h (hpre T T' hR) hrun
  exact ⟨T1', hrun', hpost T1 T1' hR1⟩

end Follows

end Prog

end Calibrd.Chainbase
