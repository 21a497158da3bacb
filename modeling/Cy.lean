import Cy.Basic
import Cy.Index
import Cy.State
import Cy.Names
import Cy.Allocate
import Cy.Heartbeat
import Cy.Bloom
import Cy.Futures
import Cy.Api
import Cy.Identity
import Cy.Wire
import Cy.Tables
import Cy.NodeId
import Cy.Events
import Cy.Registry
import Cy.Gossip
import Cy.Crowd
import Cy.Termination
import Cy.Ring
import Cy.Creation
import Cy.Iteration
import Cy.Priority
import Cy.Climb
import Cy.Subscriptions
import Cy.FutureTables
import Cy.Completion
import Cy.Schedule
